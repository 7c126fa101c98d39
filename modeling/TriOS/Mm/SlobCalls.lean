import TriOS.Mm.SlobRuns

/-!
# SlobCalls — runs of kmalloc and kfree

A large block has a record among the small ones and a run of pages of its own. Every call keeps the invariant of the
heap, so that it holds in whole runs, whatever the page allocator answers. What `kmalloc` returns is large enough
unless the size is rounded down on the way to the number of pages.
-/

namespace TriOS
namespace Slob

open Blocks OneWay Outcome Transition

variable {arena : Nat} {s s' : Heap} {bs bs' us : List Block} {taken : List Nat} {st st' : HeapState}
  {n m size order : Nat} {page run : Option Nat} {grants : Nat → Option Nat}

/-! ## Large blocks -/

/-- The records of the large blocks and the number of free pages are not what `slob_alloc` works on. -/
theorem Shared.congr (h : Shared arena s bs us taken) (hunits : s'.units = s.units) (hnext : s'.next = s.next)
    (hrover : s'.slobfree = s.slobfree) : Shared arena s' bs us taken := by
  refine ⟨⟨?_, h.ring.spaced, h.ring.pos, ?_, ?_⟩, h.used, h.apart, h.free, h.inside, h.sum⟩
  · rw [hnext]
    exact h.ring.path
  · rw [hunits]
    exact h.ring.units
  · rw [hrover]
    exact h.ring.rover

/-- The blocks in use when there is one more record. -/
theorem used_cons (small : List Block) (l : BigLive) (bigs : List BigLive) :
    (l.header :: (small ++ bigs.map BigLive.header)).Perm (small ++ (l :: bigs).map BigLive.header) :=
  List.perm_middle.symm

/-- The page that `slob_alloc` has taken is the one that it was offered. -/
theorem Ready.taken_page (hready : Ready arena st order (grants 0) run) (hfrom : page = none ∨ page = grants 0) :
    ∀ p, page = some p → arena + 1 < (pageBlock p).start ∧ p ∉ st.taken ∧
      ∀ l ∈ st.bigs, (pageBlock p).Disjoint l.run := by
  intro p hp
  rcases hfrom with hnone | hgrant
  · rw [hnone] at hp
    cases hp
  · exact hready.page p (hgrant.symm.trans hp)

/-- A record that `slob_alloc` has just given away is none of those in use. -/
theorem Shared.fresh_record {bb : Nat} (h : Shared arena s bs (⟨bb, slobUnits sizeofBigblock⟩ :: us) taken)
    {l : BigLive} (hl : l.header ∈ us) : l.bb ≠ bb := by
  have hpos : 0 < slobUnits sizeofBigblock := by decide
  intro heq
  refine (List.pairwise_cons.1 h.apart).1 _ hl bb ⟨le_rfl, Nat.lt_add_of_pos_right hpos⟩ ⟨heq.le, ?_⟩
  have hstop : l.header.stop = l.bb + slobUnits sizeofBigblock := rfl
  rw [hstop, heq]
  exact Nat.lt_add_of_pos_right hpos

/-- The state after `slob_alloc` has taken a page for a record that was given back. -/
def HeapState.failLarge (st : HeapState) (s' : Heap) (page : Option Nat) : HeapState :=
  { st with heap := s', taken := page.toList ++ st.taken }

/-- The state with one more large block. -/
def HeapState.addLarge (st : HeapState) (s' : Heap) (page : Option Nat) (l : BigLive) : HeapState :=
  { heap := s', small := st.small, bigs := l :: st.bigs, taken := page.toList ++ st.taken }

/-- The pages of the large blocks stay apart from those of `slob_alloc`. -/
theorem Inv.apart_taken (h : Inv arena st bs) (hgrant : ∀ p, page = some p → ∀ l ∈ st.bigs, (pageBlock p).Disjoint l.run)
    {l : BigLive} (hl : l ∈ st.bigs) {p : Nat} (hp : l.run.Mem p) : p / pageUnits ∉ page.toList ++ st.taken := by
  intro hmem
  rcases List.mem_append.1 hmem with hmem | hmem
  · have hpage : page = some (p / pageUnits) := by simpa using hmem
    refine hgrant _ hpage l hl p ?_ hp
    have hunits : pageUnits = 256 := rfl
    unfold Block.Mem Block.stop pageBlock
    dsimp only
    rw [hunits]
    omega
  · exact h.apart l hl p hp hmem

/-- The record and the pages of a large block are put to those in use. -/
theorem Inv.addLarge (h : Inv arena st bs) (hready : Ready arena st order (grants 0) run)
    (hfrom : page = none ∨ page = grants 0) {bb q : Nat} (hrun : run = some q)
    (ha : Allocated arena st.heap bs page (slobUnits sizeofBigblock) bb s' bs') {s'' : Heap}
    (hs : s'' = { s'.setBig bb { order := order, pages := q * pageUnits, next := s'.bigblocks } with
      bigblocks := some bb, nrFree := s'.nrFree - 2 ^ order }) :
    Inv arena (st.addLarge s'' page ⟨bb, q * pageUnits, order⟩) bs' := by
  have hgrant := hready.taken_page hfrom
  obtain ⟨habove, hfresh, hapart, hpage⟩ := hready.pages q hrun
  obtain ⟨hshared, hsame⟩ := h.shared.alloc (fun p hp => (hgrant p hp).2.1) (by decide) ha
  have hshared' : Shared arena s'' bs' (⟨bb, slobUnits sizeofBigblock⟩ :: st.used) (page.toList ++ st.taken) := by
    rw [hs]
    exact hshared.congr rfl rfl rfl
  refine ⟨hshared'.perm (used_cons st.small ⟨bb, q * pageUnits, order⟩ st.bigs), fun u hu => ?_, ?_, ?_, fun l hl => ?_,
    fun l hl p hp => ?_⟩
  · -- the units of a block in use are as before
    have hunits : s''.units = s'.units := by rw [hs]; rfl
    refine ⟨?_, (h.small u hu).2⟩
    have hold := hsame u (List.mem_append_left _ hu)
    change s''.units u.start = u.len
    rw [hunits, hold]
    exact (h.small u hu).1
  · have hhead : s''.big bb = { order := order, pages := q * pageUnits, next := s'.bigblocks } := by
      rw [hs]
      exact Function.update_self _ _ _
    have hold : BigList s'.big s'.bigblocks st.bigs := by
      rw [ha.big, ha.bigblocks]
      exact h.big
    change BigList s''.big s''.bigblocks (⟨bb, q * pageUnits, order⟩ :: st.bigs)
    refine ⟨?_, ?_, ?_, ?_⟩
    · rw [hs]
    · rw [hhead]
    · rw [hhead]
    · rw [hhead]
      refine hold.congr fun l hl => ?_
      have hne := hshared.fresh_record (List.mem_append_right st.small (List.mem_map_of_mem hl))
      rw [hs]
      exact Function.update_of_ne hne _ _
  · exact List.pairwise_cons.2 ⟨fun b hb => by
      obtain ⟨l, hl, rfl⟩ := List.mem_map.1 hb
      exact hapart l hl, h.runs⟩
  · rcases List.mem_cons.1 hl with rfl | hl
    · exact ⟨habove, Nat.mul_mod_left _ _⟩
    · exact h.above l hl
  · rcases List.mem_cons.1 hl with rfl | hl
    · intro hmem
      rcases List.mem_append.1 hmem with hmem | hmem
      · have hsome : page = some (p / pageUnits) := by simpa using hmem
        have hoffer : grants 0 = some (p / pageUnits) := by
          rcases hfrom with hnone | hgrants
          · rw [hnone] at hsome
            cases hsome
          · exact hgrants ▸ hsome
        refine hpage _ hoffer p hp ?_
        have hunits : pageUnits = 256 := rfl
        unfold Block.Mem Block.stop pageBlock
        dsimp only
        rw [hunits]
        omega
      · exact hfresh p hp hmem
    · exact h.apart_taken (fun p hp => (hgrant p hp).2.2) hl hp

/-- The record is given back when there are no pages for the block. -/
theorem Inv.failLarge (h : Inv arena st bs) (hready : Ready arena st order (grants 0) run)
    (hfrom : page = none ∨ page = grants 0) {bb : Nat} (record : Bigblock)
    (ha : Allocated arena st.heap bs page (slobUnits sizeofBigblock) bb s bs') : ∃ s' bs'',
      Returns (fun bound => slobFree bound (s.setBig bb record) bb sizeofBigblock) s' ∧ s'.nrFree = s.nrFree ∧
      Inv arena (st.failLarge s' page) bs'' := by
  have hgrant := hready.taken_page hfrom
  obtain ⟨hshared, hsame⟩ := h.shared.alloc (fun p hp => (hgrant p hp).2.1) (by decide) ha
  have hshared' : Shared arena (s.setBig bb record) bs' (⟨bb, slobUnits sizeofBigblock⟩ :: st.used)
      (page.toList ++ st.taken) := hshared.congr rfl rfl rfl
  obtain ⟨s', bs'', hreturns, hback, hrest, -, hunits⟩ := hshared'.giveBack (fun _ => rfl) fun hzero =>
    absurd hzero (by decide)
  refine ⟨s', bs'', hreturns, hrest.nrFree, hback, fun u hu => ⟨?_, (h.small u hu).2⟩, ?_, h.runs, h.above,
    fun l hl p hp => h.apart_taken (fun p hp => (hgrant p hp).2.2) hl hp⟩
  · calc
      s'.units u.start = s.units u.start := hunits u (List.mem_append_left _ hu)
      _ = st.heap.units u.start := hsame u (List.mem_append_left _ hu)
      _ = u.len := (h.small u hu).1
  · have hold : BigList s.big s.bigblocks st.bigs := by
      rw [ha.big, ha.bigblocks]
      exact h.big
    change BigList s'.big s'.bigblocks st.bigs
    rw [hrest.big, hrest.bigblocks]
    refine hold.congr fun l hl => ?_
    have hne := hshared.fresh_record (List.mem_append_right st.small (List.mem_map_of_mem hl))
    exact Function.update_of_ne hne _ _

/-- Two units that are taken without a new page are in one free block. -/
theorem Allocated.fits (h : FreeRing arena s bs) {bb : Nat}
    (ha : Allocated arena s bs none (slobUnits sizeofBigblock) bb s' bs') : ∃ b ∈ bs, slobUnits sizeofBigblock ≤ b.len := by
  have htwo : slobUnits sizeofBigblock = 2 := rfl
  rw [htwo] at ha ⊢
  have hmem : ∀ p, (⟨bb, 2⟩ : Block).Mem p → Covers bs p := fun p hp => (ha.covers p).1 (Or.inr hp)
  obtain ⟨b, hb, hlow, hhigh⟩ := hmem bb ⟨le_rfl, Nat.lt_add_of_pos_right Nat.two_pos⟩
  obtain ⟨c, hc, hlow', hhigh'⟩ := hmem (bb + 1) ⟨Nat.le_succ _, Nat.lt_succ_self _⟩
  refine ⟨b, hb, ?_⟩
  have hspaced : Spaced bs := (List.pairwise_cons.1 h.spaced).2
  unfold Block.stop at hhigh hhigh'
  -- another block would have a gap to this one
  obtain ⟨pre, post, rfl⟩ := List.append_of_mem hb
  obtain ⟨-, hpre, hpost⟩ := spaced_middle.1 hspaced
  rcases List.mem_append.1 hc with hc | hc
  · have hgap := hpre c hc
    unfold Block.stop at hgap
    omega
  · rcases List.mem_cons.1 hc with rfl | hc
    · omega
    · have hgap := hpost c hc
      unfold Block.stop at hgap
      omega

/-- What can come of a request for a large block, where the free blocks were `bs`. -/
inductive LargeResult (arena : Nat) (st : HeapState) (bs : List Block) (grant run : Option Nat) (order : Nat) :
    Option Nat → HeapState → List Block → Prop where
  | noRecord (hnone : ∀ b ∈ bs, b.len < slobUnits sizeofBigblock) (hgrant : grant = none) (h : Inv arena st bs) :
      LargeResult arena st bs grant run order none st bs
  | noPages {bs' : List Block} {s' : Heap} {page : Option Nat} (hrun : run = none) (hpage : page = none ∨ page = grant)
      (h : Inv arena (st.failLarge s' page) bs') (hfree : s'.nrFree = st.heap.nrFree - page.toList.length) :
      LargeResult arena st bs grant run order none (st.failLarge s' page) bs'
  | block {bs' : List Block} {s' : Heap} {page : Option Nat} {bb q : Nat} (hrun : run = some q)
      (hfits : grant = none → ∃ b ∈ bs, slobUnits sizeofBigblock ≤ b.len) (hpage : page = none ∨ page = grant) (h : Inv arena (st.addLarge s' page ⟨bb, q * pageUnits, order⟩) bs')
      (hfree : s'.nrFree = st.heap.nrFree - page.toList.length - 2 ^ order) :
      LargeResult arena st bs grant run order (some (q * pageUnits))
        (st.addLarge s' page ⟨bb, q * pageUnits, order⟩) bs'

theorem kmalloc_large (h : Inv arena st bs) (hlarge : pgSize - slobUnit ≤ size)
    (hready : Ready arena st (findOrder (toInt size)) (grants 0) run) : ∃ r st' bs',
      Returns (fun bound => kmalloc bound grants run st.heap size) (r, st'.heap) ∧
        LargeResult arena st bs (grants 0) run (findOrder (toInt size)) r st' bs' := by
  have hnot : ¬ size < pgSize - slobUnit := Nat.not_lt.2 hlarge
  have hpage : ∀ p, grants 0 = some p → PageFree arena bs p := fun p hp =>
    h.shared.pageFree (hready.page p hp).1 (hready.page p hp).2.1
  rcases slobAlloc_spec h.shared.ring (by decide) (by decide : sizeofBigblock + slobUnit < pgSize) hpage with
    ⟨hnone, hgrant, limit, hrun⟩ | ⟨page, bb, s', bs', hfrom, -, ⟨limit, hrun⟩, ha⟩
  · refine ⟨none, st, bs, ⟨limit, fun bound hbound => ?_⟩, LargeResult.noRecord hnone hgrant h⟩
    have hrun : slobAlloc bound grants st.heap sizeofBigblock = done (none, st.heap) := hrun bound hbound
    simp only [kmalloc, if_neg hnot, hrun, bind_done, pure_eq_done]
  · cases hcase : run with
    | none =>
        obtain ⟨s'', bs'', ⟨limit', hback⟩, hfree, hinv⟩ :=
          h.failLarge hready hfrom { s'.big bb with order := findOrder (toInt size), pages := 0 } ha
        refine ⟨none, st.failLarge s'' page, bs'', ⟨max limit limit', fun bound hbound => ?_⟩,
          LargeResult.noPages rfl hfrom hinv (hfree.trans ha.nrFree)⟩
        have hrun : slobAlloc bound grants st.heap sizeofBigblock = done (some bb, s') :=
          hrun bound (le_trans (le_max_left _ _) hbound)
        have hback : slobFree bound (s'.setBig bb { s'.big bb with order := findOrder (toInt size), pages := 0 }) bb
            sizeofBigblock = done s'' := hback bound (le_trans (le_max_right _ _) hbound)
        simp only [kmalloc, if_neg hnot, hrun, bind_done, kmallocPages, slobGetFreePages, hback, pure_eq_done]
        rfl
    | some q =>
        rw [hcase] at hready
        have hinv := h.addLarge hready hfrom rfl ha rfl
        refine ⟨some (q * pageUnits), _, bs', ⟨limit, fun bound hbound => ?_⟩,
          LargeResult.block rfl (fun hgrant => ?_) hfrom hinv ?_⟩
        · have hrun : slobAlloc bound grants st.heap sizeofBigblock = done (some bb, s') := hrun bound hbound
          simp only [kmalloc, if_neg hnot, hrun, bind_done, kmallocPages, slobGetFreePages, pure_eq_done]
          rfl
        · have hnone : page = none := hfrom.elim id fun heq => heq.trans hgrant
          rw [hnone] at ha
          exact ha.fits h.shared.ring
        · rw [← ha.nrFree]

/-! ## kfree -/

/-- The state without a small block. -/
def HeapState.removeSmall (st : HeapState) (s' : Heap) (u : Block) : HeapState :=
  { st with heap := s', small := st.small.erase u }

/-- The state without a large block. -/
def HeapState.removeLarge (st : HeapState) (s' : Heap) (l : BigLive) : HeapState :=
  { st with heap := s', bigs := st.bigs.erase l }

theorem Inv.live_pos (h : Inv arena st bs) {u : Block} (hu : u ∈ st.small) : arena + 1 < u.start ∧ 2 ≤ u.len :=
  ⟨(h.shared.used u (List.mem_append_left _ hu)).1, (h.small u hu).2⟩

/-- What `kmalloc` has returned for a small size is not the first unit of a large block. -/
theorem Inv.small_not_pages (h : Inv arena st bs) {u : Block} (hu : u ∈ st.small) {l : BigLive} (hl : l ∈ st.bigs) :
    l.pages ≠ u.start + 1 := by
  intro heq
  have hlen := (h.small u hu).2
  have hmem : u.Mem (u.start + 1) := by
    unfold Block.Mem Block.stop
    omega
  have htaken := h.shared.inside _ ⟨u, List.mem_append_right _ (List.mem_append_left _ hu), hmem⟩
  refine h.apart l hl (u.start + 1) ⟨heq.le, ?_⟩ htaken
  have hstop : l.run.stop = l.pages + 2 ^ l.order * pageUnits := rfl
  rw [hstop, ← heq]
  exact Nat.lt_add_of_pos_right (Nat.mul_pos (Nat.two_pow_pos _) (by decide))

theorem kfree_small (h : Inv arena st bs) {u : Block} (hu : u ∈ st.small) : ∃ s' bs',
    Returns (fun bound => kfree bound st.heap (u.start + 1)) s' ∧ s'.nrFree = st.heap.nrFree ∧
      total bs' = total bs + u.len ∧ Inv arena (st.removeSmall s' u) bs' := by
  have hperm : st.used.Perm (u :: (st.removeSmall st.heap u).used) := by
    unfold HeapState.used HeapState.removeSmall
    exact (List.perm_cons_erase hu).append_right _
  have hlen := (h.small u hu).1
  obtain ⟨s', bs', ⟨limit, hrun⟩, hshared, hsame, htotal, hunits⟩ :=
    (h.shared.perm hperm).giveBack (fun hne => absurd rfl hne) fun _ => hlen
  refine ⟨s', bs', ⟨max limit (st.bigs.length + 1), fun bound hbound => ?_⟩, hsame.nrFree, htotal, hshared,
    fun v hv => ?_, ?_, h.runs, h.above, h.apart⟩
  · have hback : slobFree bound st.heap u.start 0 = done s' := hrun bound (le_trans (le_max_left _ _) hbound)
    have hnone : kfreeLoop st.heap.big (u.start + 1) bound st.heap.bigblocks none = done none :=
      h.big.not_found (fun l hl => h.small_not_pages hu hl) bound
        (Nat.lt_of_succ_le (le_trans (le_max_right _ _) hbound))
    have hfound : (if (u.start + 1) % pageUnits = 0 then
        kfreeLoop st.heap.big (u.start + 1) bound st.heap.bigblocks none else pure none) = done none := by
      split
      · exact hnone
      · rfl
    change kfree bound st.heap (u.start + 1) = done s'
    unfold kfree
    rw [if_neg (Nat.succ_ne_zero _), hfound, bind_done]
    exact hback
  · have hv' : v ∈ st.small := List.mem_of_mem_erase hv
    refine ⟨?_, (h.small v hv').2⟩
    have hold := hunits v (List.mem_append_left _ hv)
    change s'.units v.start = v.len
    rw [hold]
    exact (h.small v hv').1
  · change BigList s'.big s'.bigblocks st.bigs
    rw [hsame.big, hsame.bigblocks]
    exact h.big

/-- Taking a record out of `bigblocks` leaves the other records and the blocks as they are. -/
theorem unlinkBig_same (s : Heap) (bb : Nat) (last : Option Nat) :
    (unlinkBig s bb last).units = s.units ∧ (unlinkBig s bb last).next = s.next ∧
      (unlinkBig s bb last).slobfree = s.slobfree ∧ (unlinkBig s bb last).nrFree = s.nrFree := by
  cases last with
  | none => exact ⟨rfl, rfl, rfl, rfl⟩
  | some last => exact ⟨rfl, rfl, rfl, rfl⟩

/-- The order of a record is not changed when it is taken out. -/
theorem unlinkBig_order (s : Heap) (bb : Nat) (last : Option Nat) :
    ((unlinkBig s bb last).big bb).order = (s.big bb).order := by
  cases last with
  | none => rfl
  | some last =>
      change (Function.update s.big last { s.big last with next := (s.big bb).next } bb).order = _
      by_cases heq : bb = last
      · rw [heq, Function.update_self]
      · rw [Function.update_of_ne heq]

theorem BigList.order_of_mem {big : Nat → Bigblock} {head : Option Nat} {ls : List BigLive} (h : BigList big head ls)
    {l : BigLive} (hl : l ∈ ls) : (big l.bb).order = l.order := by
  induction ls generalizing head with
  | nil => exact absurd hl List.not_mem_nil
  | cons l' ls ih =>
      obtain ⟨-, -, horder, hrest⟩ := h
      rcases List.mem_cons.1 hl with rfl | hl
      · exact horder
      · exact ih hrest hl

theorem kfree_large (h : Inv arena st bs) {l : BigLive} (hl : l ∈ st.bigs) : ∃ s' bs',
    Returns (fun bound => kfree bound st.heap l.pages) s' ∧ s'.nrFree = st.heap.nrFree + 2 ^ l.order ∧
      total bs' = total bs + slobUnits sizeofBigblock ∧ Inv arena (st.removeLarge s' l) bs' := by
  obtain ⟨pre, post, hpre, hsplit, herase⟩ := List.exists_erase_eq hl
  have hnodup := h.bb_nodup
  have hbig := h.big
  rw [hsplit] at hbig hnodup
  -- the pages of the records before it are others
  have hother : ∀ l' ∈ pre, l'.pages ≠ l.pages := by
    intro l' hl' heq
    have hpair := h.runs
    rw [hsplit, List.map_append, List.map_cons] at hpair
    have hdis := (List.pairwise_append.1 hpair).2.2 _ (List.mem_map_of_mem hl') _ List.mem_cons_self
    have hpos : ∀ l : BigLive, l.run.Mem l.pages := fun l =>
      ⟨le_rfl, Nat.lt_add_of_pos_right (Nat.mul_pos (Nat.two_pow_pos _) (by decide))⟩
    exact hdis _ (hpos l') (heq ▸ hpos l)
  have hunlink := hbig.unlink hnodup
  have hsame := unlinkBig_same st.heap l.bb (lastRecord none pre)
  have hperm : st.used.Perm (l.header :: (st.removeLarge st.heap l).used) := by
    unfold HeapState.used HeapState.removeLarge
    have herased : (st.bigs.map BigLive.header).Perm ((l :: st.bigs.erase l).map BigLive.header) :=
      (List.perm_cons_erase hl).map _
    exact ((herased.append_left st.small).trans List.perm_middle)
  have hshared : Shared arena (slobFreePages (unlinkBig st.heap l.bb (lastRecord none pre)) l.order) bs
      (l.header :: (st.removeLarge st.heap l).used) st.taken :=
    (h.shared.perm hperm).congr hsame.1 hsame.2.1 hsame.2.2.1
  obtain ⟨s', bs', ⟨limit, hrun⟩, hback, hrest, htotal, hunits⟩ :=
    hshared.giveBack (fun _ => rfl) fun hzero => absurd hzero (by decide)
  refine ⟨s', bs', ⟨max limit (pre.length + 1), fun bound hbound => ?_⟩, ?_, htotal, hback, fun u hu => ?_, ?_, ?_,
    fun l' hl' => h.above l' (List.mem_of_mem_erase hl'), fun l' hl' => h.apart l' (List.mem_of_mem_erase hl')⟩
  · have hfree : slobFree bound (slobFreePages (unlinkBig st.heap l.bb (lastRecord none pre)) l.order) l.bb
        sizeofBigblock = done s' := hrun bound (le_trans (le_max_left _ _) hbound)
    have hfound : kfreeLoop st.heap.big l.pages bound st.heap.bigblocks none =
        done (some (l.bb, lastRecord none pre)) :=
      hbig.found rfl hother bound (Nat.lt_of_succ_le (le_trans (le_max_right _ _) hbound))
    have hne : l.pages ≠ 0 := by
      have habove := (h.above l hl).1
      omega
    have horder := (unlinkBig_order st.heap l.bb (lastRecord none pre)).trans (h.big.order_of_mem hl)
    change kfree bound st.heap l.pages = done s'
    unfold kfree
    rw [if_neg hne, if_pos (h.above l hl).2, hfound, bind_done]
    dsimp only
    rw [horder]
    exact hfree
  · rw [hrest.nrFree, slobFreePages]
    dsimp only
    rw [hsame.2.2.2]
  · refine ⟨?_, (h.small u hu).2⟩
    have hold := hunits u (List.mem_append_left _ hu)
    change s'.units u.start = u.len
    rw [hold, slobFreePages]
    dsimp only
    rw [hsame.1]
    exact (h.small u hu).1
  · change BigList s'.big s'.bigblocks (st.bigs.erase l)
    rw [hrest.big, hrest.bigblocks, herase]
    exact hunlink
  · have hpair := h.runs
    exact hpair.sublist ((List.erase_sublist).map _)

/-! ## Runs -/

/-- The sizes for which `slob_alloc` is not called with too much. -/
def Served (size : Nat) : Prop := 1 ≤ size ∧ (size + slobUnit + slobUnit < pgSize ∨ pgSize - slobUnit ≤ size)

/-- A call, with the answers of the page allocator. A block that is freed is one that is in use. -/
inductive HeapCall where
  | kmalloc (size : Nat) (grants : Nat → Option Nat) (run : Option Nat)
  | kfreeSmall (u : Block)
  | kfreeLarge (l : BigLive)

/-- The pages of `slob_alloc` after a call that took `granted` pages for a large block. -/
def HeapState.takenAfter (st : HeapState) (grant : Option Nat) (granted : Int) (s' : Heap) : List Nat :=
  if s'.nrFree = st.heap.nrFree - granted then st.taken else grant.toList ++ st.taken

/-- The state after `kmalloc` has returned. -/
def HeapState.malloc (st : HeapState) (size : Nat) (grant : Option Nat) : Option Nat → Heap → HeapState
  | none, s' => { st with heap := s', taken := st.takenAfter grant 0 s' }
  | some p, s' =>
      if size < pgSize - slobUnit then
        { heap := s', small := ⟨p - 1, slobUnits (size + slobUnit)⟩ :: st.small, bigs := st.bigs,
          taken := st.takenAfter grant 0 s' }
      else
        { heap := s', small := st.small, bigs := ⟨s'.bigblocks.getD 0, p, findOrder (toInt size)⟩ :: st.bigs,
          taken := st.takenAfter grant (2 ^ findOrder (toInt size)) s' }

/-- A call that the callers and the page allocator may make of the heap. -/
def Allowed (arena : Nat) (st : HeapState) : HeapCall → Prop
  | HeapCall.kmalloc size grants run => Served size ∧ Ready arena st (findOrder (toInt size)) (grants 0) run
  | HeapCall.kfreeSmall u => u ∈ st.small
  | HeapCall.kfreeLarge l => l ∈ st.bigs

/-- What the code does at a call. -/
def Returned (st : HeapState) : HeapCall → HeapState → Prop
  | HeapCall.kmalloc size grants run, st' => ∃ r s',
      Returns (fun bound => kmalloc bound grants run st.heap size) (r, s') ∧ st' = st.malloc size (grants 0) r s'
  | HeapCall.kfreeSmall u, st' => ∃ s',
      Returns (fun bound => kfree bound st.heap (u.start + 1)) s' ∧ st' = st.removeSmall s' u
  | HeapCall.kfreeLarge l, st' => ∃ s',
      Returns (fun bound => kfree bound st.heap l.pages) s' ∧ st' = st.removeLarge s' l

/-- One call. -/
def HeapStep (arena : Nat) (st : HeapState) (a : HeapCall) (st' : HeapState) : Prop :=
  Allowed arena st a ∧ Returned st a st'

/-- The pages that are free or in use. -/
def HeapState.pages (st : HeapState) : Int :=
  st.heap.nrFree + st.taken.length + (st.bigs.map fun l => (2 : Int) ^ l.order).sum

theorem HeapState.takenAfter_eq {grant : Option Nat} {granted : Int} (hfrom : page = none ∨ page = grant)
    (hfree : s'.nrFree = st.heap.nrFree - page.toList.length - granted) :
    st.takenAfter grant granted s' = page.toList ++ st.taken := by
  unfold HeapState.takenAfter
  cases page with
  | none =>
      rw [if_pos (by rw [hfree]; simp)]
      rfl
  | some p =>
      have hgrant : some p = grant := hfrom.resolve_left (Option.some_ne_none p)
      rw [if_neg (by rw [hfree]; simp), hgrant]

/-- A call returns, and keeps the invariant and the number of pages. -/
theorem Inv.call (h : Inv arena st bs) {a : HeapCall} (hallowed : Allowed arena st a) :
    ∃ st' bs', Returned st a st' ∧ Inv arena st' bs' ∧ st'.pages = st.pages := by
  cases a with
  | kmalloc size grants run =>
      obtain ⟨⟨hsize, hcase⟩, hready⟩ := hallowed
      rcases hcase with hsmall | hlarge
      · have hlt : size < pgSize - slobUnit := by omega
        rcases kmalloc_small h hsize hsmall hready with ⟨-, -, hrun⟩ | ⟨page, m, s', bs', hfrom, hrun, ha, hinv⟩
        · have hsame : st.malloc size (grants 0) none st.heap = st := by
            have htaken := @HeapState.takenAfter_eq st.heap st none (grants 0) 0 (Or.inl rfl) (by simp)
            change { st with taken := st.takenAfter (grants 0) 0 st.heap } = st
            rw [htaken]
            rfl
          exact ⟨st, bs, ⟨none, st.heap, hrun, hsame.symm⟩, h, rfl⟩
        · have htaken : st.takenAfter (grants 0) 0 s' = page.toList ++ st.taken :=
            HeapState.takenAfter_eq hfrom (by rw [ha.nrFree, sub_zero])
          have hsame : st.malloc size (grants 0) (some (m + 1)) s' =
              st.addSmall s' page ⟨m, slobUnits (size + slobUnit)⟩ := by
            unfold HeapState.malloc HeapState.addSmall
            dsimp only
            rw [if_pos hlt, htaken, Nat.add_sub_cancel]
          refine ⟨_, bs', ⟨some (m + 1), s', hrun, hsame.symm⟩, hinv, ?_⟩
          unfold HeapState.pages HeapState.addSmall
          dsimp only
          rw [ha.nrFree, List.length_append, Nat.cast_add]
          ring
      · obtain ⟨r, st', bs', hrun, hresult⟩ := kmalloc_large h hlarge hready
        have hnot : ¬ size < pgSize - slobUnit := Nat.not_lt.2 hlarge
        cases hresult with
        | noRecord _ hgrant hinv =>
            have hsame : st.malloc size (grants 0) none st.heap = st := by
              have htaken := @HeapState.takenAfter_eq st.heap st none (grants 0) 0 (Or.inl rfl) (by simp)
              change { st with taken := st.takenAfter (grants 0) 0 st.heap } = st
              rw [htaken]
              rfl
            exact ⟨st, bs, ⟨none, st.heap, hrun, hsame.symm⟩, hinv, rfl⟩
        | @noPages _ s' page _ hfrom hinv hfree =>
            have htaken : st.takenAfter (grants 0) 0 s' = page.toList ++ st.taken :=
              HeapState.takenAfter_eq hfrom (by rw [hfree, sub_zero])
            have hsame : st.malloc size (grants 0) none s' = st.failLarge s' page := by
              change { st with heap := s', taken := st.takenAfter (grants 0) 0 s' } = _
              rw [htaken]
              rfl
            refine ⟨_, bs', ⟨none, s', hrun, hsame.symm⟩, hinv, ?_⟩
            unfold HeapState.pages HeapState.failLarge
            dsimp only
            rw [hfree, List.length_append, Nat.cast_add]
            ring
        | @block _ s' page bb q _ _ hfrom hinv hfree =>
            have htaken : st.takenAfter (grants 0) (2 ^ findOrder (toInt size)) s' = page.toList ++ st.taken :=
              HeapState.takenAfter_eq hfrom hfree
            have hhead : s'.bigblocks = some bb := hinv.big.1
            have hsame : st.malloc size (grants 0) (some (q * pageUnits)) s' =
                st.addLarge s' page ⟨bb, q * pageUnits, findOrder (toInt size)⟩ := by
              unfold HeapState.malloc HeapState.addLarge
              dsimp only
              rw [if_neg hnot, htaken, hhead]
              rfl
            refine ⟨_, bs', ⟨some (q * pageUnits), s', hrun, hsame.symm⟩, hinv, ?_⟩
            unfold HeapState.pages HeapState.addLarge
            dsimp only
            rw [hfree, List.length_append, Nat.cast_add, List.map_cons, List.sum_cons]
            ring
  | kfreeSmall u =>
      obtain ⟨s', bs', hrun, hfree, -, hinv⟩ := kfree_small h hallowed
      refine ⟨_, bs', ⟨s', hrun, rfl⟩, hinv, ?_⟩
      unfold HeapState.pages HeapState.removeSmall
      dsimp only
      rw [hfree]
  | kfreeLarge l =>
      obtain ⟨s', bs', hrun, hfree, -, hinv⟩ := kfree_large h hallowed
      refine ⟨_, bs', ⟨s', hrun, rfl⟩, hinv, ?_⟩
      have hsum := ((List.perm_cons_erase hallowed).map fun l => (2 : Int) ^ l.order).sum_eq
      rw [List.map_cons, List.sum_cons] at hsum
      unfold HeapState.pages HeapState.removeLarge
      dsimp only
      rw [hfree, hsum]
      ring

/-- What the code does at a call is determined. -/
theorem Returned.unique {a : HeapCall} {st₁ st₂ : HeapState} (h₁ : Returned st a st₁) (h₂ : Returned st a st₂) :
    st₁ = st₂ := by
  cases a with
  | kmalloc size grants run =>
      obtain ⟨r₁, s₁, hrun₁, rfl⟩ := h₁
      obtain ⟨r₂, s₂, hrun₂, rfl⟩ := h₂
      obtain ⟨rfl, rfl⟩ := Prod.mk.inj (hrun₁.unique hrun₂)
      rfl
  | kfreeSmall u =>
      obtain ⟨s₁, hrun₁, rfl⟩ := h₁
      obtain ⟨s₂, hrun₂, rfl⟩ := h₂
      rw [hrun₁.unique hrun₂]
  | kfreeLarge l =>
      obtain ⟨s₁, hrun₁, rfl⟩ := h₁
      obtain ⟨s₂, hrun₂, rfl⟩ := h₂
      rw [hrun₁.unique hrun₂]

theorem HeapStep.inv {a : HeapCall} (h : Inv arena st bs) (hstep : HeapStep arena st a st') :
    ∃ bs', Inv arena st' bs' ∧ st'.pages = st.pages := by
  obtain ⟨hallowed, hreturned⟩ := hstep
  obtain ⟨st'', bs', hreturned', hinv, hpages⟩ := h.call hallowed
  rw [hreturned.unique hreturned']
  exact ⟨bs', hinv, hpages⟩

/-- The heap before the first call: the list of the free blocks is `arena` alone. -/
def HeapState.start (arena : Nat) (nrFree : Int) : HeapState where
  heap :=
    { units := fun _ => 1, next := fun _ => arena, slobfree := arena, big := fun _ => ⟨0, 0, none⟩,
      bigblocks := none, nrFree := nrFree }
  small := []
  bigs := []
  taken := []

theorem start_inv (arena : Nat) (nrFree : Int) : Inv arena (HeapState.start arena nrFree) [] := by
  refine ⟨⟨⟨rfl, List.pairwise_singleton _ _, fun b hb => absurd hb List.not_mem_nil, fun b hb => ?_,
    List.mem_cons_self⟩, ?_, List.Pairwise.nil, ?_, ?_, rfl⟩, ?_, rfl, List.Pairwise.nil, ?_, ?_⟩
  · rw [List.mem_singleton.1 hb]
    rfl
  · exact fun u hu => absurd hu List.not_mem_nil
  · exact fun b hb => absurd hb List.not_mem_nil
  · rintro p ⟨b, hb, -⟩
    exact absurd hb List.not_mem_nil
  · exact fun u hu => absurd hu List.not_mem_nil
  · exact fun l hl => absurd hl List.not_mem_nil
  · exact fun l hl => absurd hl List.not_mem_nil

/-- In every run of `kmalloc` and `kfree`, with any answers of the page allocator, the heap is in order, every page
that was there is free or in use, and the next call returns. -/
theorem heap_runs (arena : Nat) (nrFree : Int) (as : List HeapCall) (st : HeapState)
    (hrun : Run (HeapStep arena) (HeapState.start arena nrFree) as st) :
    (∃ bs, Inv arena st bs) ∧ st.pages = nrFree ∧ ∀ a, Allowed arena st a → ∃ st', HeapStep arena st a st' := by
  have hinv : (∃ bs, Inv arena st bs) ∧ st.pages = nrFree := by
    refine hrun.invariant (fun st => (∃ bs, Inv arena st bs) ∧ st.pages = nrFree) ?_
      ⟨⟨[], start_inv arena nrFree⟩, ?_⟩
    · rintro t a u ⟨⟨bs, ht⟩, hpages⟩ hstep
      obtain ⟨bs', hu, hsame⟩ := hstep.inv ht
      exact ⟨⟨bs', hu⟩, hsame.trans hpages⟩
    · unfold HeapState.pages HeapState.start
      simp
  refine ⟨hinv.1, hinv.2, fun a hallowed => ?_⟩
  obtain ⟨bs, h⟩ := hinv.1
  obtain ⟨st', -, hreturned, -⟩ := h.call hallowed
  exact ⟨st', hallowed, hreturned⟩

/-- A run of one call, for which the page allocator gives the page 1. -/
theorem heap_runs_one : ∃ st, Run (HeapStep 3) (HeapState.start 3 8)
      [HeapCall.kmalloc 100 (fun _ => some 1) none] st ∧ (∃ bs, Inv 3 st bs) ∧ st.pages = 8 := by
  have hready : Ready 3 (HeapState.start 3 8) (findOrder (toInt 100)) (some 1) none := by
    refine ⟨fun p hp => ?_, fun q hq => absurd hq (Option.some_ne_none q).symm⟩
    obtain rfl : 1 = p := Option.some.inj hp
    exact ⟨by decide, List.not_mem_nil, fun l hl => absurd hl List.not_mem_nil⟩
  have hallowed : Allowed 3 (HeapState.start 3 8) (HeapCall.kmalloc 100 (fun _ => some 1) none) :=
    ⟨⟨by decide, Or.inl (by decide)⟩, hready⟩
  obtain ⟨st, -, hreturned, -⟩ := (start_inv 3 8).call hallowed
  have hrun : Run (HeapStep 3) (HeapState.start 3 8) ([] ++ [HeapCall.kmalloc 100 (fun _ => some 1) none]) st :=
    Run.nil.snoc ⟨hallowed, hreturned⟩
  obtain ⟨hinv, hpages, -⟩ := heap_runs 3 8 _ st hrun
  exact ⟨st, hrun, hinv, hpages⟩

/-! ## The size of what is returned -/

/-- `ksize` -/
def ksize (bound : Nat) (s : Heap) (block : Nat) : Outcome Nat :=
  if block = 0 then pure 0
  else do
    let found ← (if block % pageUnits = 0 then kfreeLoop s.big block bound s.bigblocks none else pure none)
    match found with
    | some (bb, _) => pure (pgSize * 2 ^ (s.big bb).order)
    | none => pure (s.units (block - 1) * slobUnit)

/-- What `ksize` counts and a caller of `kmalloc` does not have: the header of a small block. -/
def headerSize (size : Nat) : Nat := if size < pgSize - slobUnit then slobUnit else 0

/-- The sizes for which `kmalloc` does what it should: it asks for enough, or it is out of memory. -/
def Enough (bs : List Block) (grant run : Option Nat) (size : Nat) : Prop :=
  size + slobUnit + slobUnit < pgSize ∨ (pgSize - slobUnit ≤ size ∧ (size ≤ pgSize * 2 ^ findOrder (toInt size) ∨
    run = none ∨ (grant = none ∧ ∀ b ∈ bs, b.len < slobUnits sizeofBigblock)))

/-- A block that `kmalloc` should return: it is apart from the others, it is large enough, and when it is given back
nothing is lost. -/
structure Good (arena : Nat) (st : HeapState) (bs : List Block) (grant : Option Nat) (size p : Nat) (s' : Heap) :
    Prop where
  apart : ∃ bs', Inv arena (st.malloc size grant (some p) s') bs'
  room : ∃ k, Returns (fun bound => ksize bound s' p) k ∧ size + headerSize size ≤ k
  back : ∃ s'' bs'', Returns (fun bound => kfree bound s' p) s'' ∧ FreeRing arena s'' bs'' ∧
    total bs'' + pageUnits * s''.nrFree = total bs + pageUnits * st.heap.nrFree

/-- The free units and pages, from the blocks in use. -/
theorem Inv.free_units (h : Inv arena st bs) : total bs + pageUnits * st.heap.nrFree =
    pageUnits * st.pages - pageUnits * (st.bigs.map fun l => (2 : Int) ^ l.order).sum - total st.used := by
  have hsum : ((total bs + total st.used : Nat) : Int) = ((pageUnits * st.taken.length : Nat) : Int) :=
    congrArg Nat.cast h.shared.sum
  push_cast at hsum
  unfold HeapState.pages
  linarith

theorem ksize_small (h : Inv arena st bs) {u : Block} (hu : u ∈ st.small) :
    Returns (fun bound => ksize bound st.heap (u.start + 1)) (u.len * slobUnit) := by
  refine ⟨st.bigs.length + 1, fun bound hbound => ?_⟩
  have hnone : kfreeLoop st.heap.big (u.start + 1) bound st.heap.bigblocks none = done none :=
    h.big.not_found (fun l hl => h.small_not_pages hu hl) bound (Nat.lt_of_succ_le hbound)
  have hfound : (if (u.start + 1) % pageUnits = 0 then
      kfreeLoop st.heap.big (u.start + 1) bound st.heap.bigblocks none else pure none) = done none := by
    split
    · exact hnone
    · rfl
  change ksize bound st.heap (u.start + 1) = done (u.len * slobUnit)
  unfold ksize
  rw [if_neg (Nat.succ_ne_zero _), hfound, bind_done]
  dsimp only
  rw [Nat.add_sub_cancel, (h.small u hu).1]
  rfl

/-- The block that was taken last is found first. -/
theorem ksize_large {l : BigLive} {bigs : List BigLive} (h : Inv arena st bs) (hbigs : st.bigs = l :: bigs) :
    Returns (fun bound => ksize bound st.heap l.pages) (pgSize * 2 ^ l.order) := by
  have hl : l ∈ st.bigs := hbigs ▸ List.mem_cons_self
  have hne : l.pages ≠ 0 := by
    have habove := (h.above l hl).1
    omega
  have hbig := h.big
  rw [hbigs] at hbig
  refine ⟨1, fun bound hbound => ?_⟩
  have hfound : kfreeLoop st.heap.big l.pages bound st.heap.bigblocks none = done (some (l.bb, none)) :=
    @BigList.found _ _ _ [] bigs l l.pages hbig rfl (fun l' hl' => absurd hl' List.not_mem_nil) bound hbound
  change ksize bound st.heap l.pages = done (pgSize * 2 ^ l.order)
  unfold ksize
  rw [if_neg hne, if_pos (h.above l hl).2, hfound, bind_done]
  dsimp only
  rw [hbig.2.2.1]
  rfl

/-- Between the small sizes and the large ones an assertion fails. -/
theorem kmalloc_panics (s : Heap) (hlow : ¬ size + slobUnit + slobUnit < pgSize) (hhigh : size < pgSize - slobUnit)
    (bound : Nat) : kmalloc bound grants run s size = panic := by
  unfold kmalloc slobAlloc
  rw [if_pos hhigh, Outcome.assert_of_not hlow]
  rfl

/-- When the blocks in use are the same again, nothing is lost. -/
theorem Inv.nothing_lost {st₂ : HeapState} {bs₂ : List Block} (h : Inv arena st bs) (h₂ : Inv arena st₂ bs₂)
    (hpages : st₂.pages = st.pages) (hsmall : st₂.small = st.small) (hbigs : st₂.bigs = st.bigs) :
    total bs₂ + pageUnits * st₂.heap.nrFree = total bs + pageUnits * st.heap.nrFree := by
  have hused : st₂.used = st.used := by
    unfold HeapState.used
    rw [hsmall, hbigs]
  rw [h.free_units, h₂.free_units, hpages, hbigs, hused]

theorem Good.of_small (h : Inv arena st bs) (hallowed : Allowed arena st (HeapCall.kmalloc size grants run))
    (hlt : size < pgSize - slobUnit)
    (hrun : Returns (fun bound => kmalloc bound grants run st.heap size) (some (m + 1), s')) :
    Good arena st bs (grants 0) size (m + 1) s' := by
  have hmalloc : st.malloc size (grants 0) (some (m + 1)) s' =
      { heap := s', small := ⟨m, slobUnits (size + slobUnit)⟩ :: st.small, bigs := st.bigs,
        taken := st.takenAfter (grants 0) 0 s' } := if_pos hlt
  have hstep : HeapStep arena st (HeapCall.kmalloc size grants run) _ := ⟨hallowed, some (m + 1), s', hrun, rfl⟩
  obtain ⟨bs', hinv, hpages⟩ := hstep.inv h
  have hmem : (⟨m, slobUnits (size + slobUnit)⟩ : Block) ∈ (st.malloc size (grants 0) (some (m + 1)) s').small := by
    rw [hmalloc]
    exact List.mem_cons_self
  have hheap : (st.malloc size (grants 0) (some (m + 1)) s').heap = s' := by rw [hmalloc]
  have hroom := ksize_small hinv hmem
  obtain ⟨s'', -, hfree, -⟩ := kfree_small hinv hmem
  have hback : HeapStep arena (st.malloc size (grants 0) (some (m + 1)) s')
    (HeapCall.kfreeSmall ⟨m, slobUnits (size + slobUnit)⟩) _ := ⟨hmem, s'', hfree, rfl⟩
  obtain ⟨bs'', hinv'', hpages''⟩ := hback.inv hinv
  rw [hheap] at hroom hfree
  refine ⟨⟨bs', hinv⟩, ⟨_, hroom, ?_⟩, ⟨s'', bs'', hfree, hinv''.shared.ring, ?_⟩⟩
  · unfold headerSize
    rw [if_pos hlt]
    unfold slobUnits slobUnit
    dsimp only
    omega
  · refine h.nothing_lost hinv'' (hpages''.trans hpages) ?_ ?_
    · unfold HeapState.removeSmall
      rw [hmalloc]
      exact List.erase_cons_head _ _
    · unfold HeapState.removeSmall
      rw [hmalloc]

theorem Good.of_large (h : Inv arena st bs) (hallowed : Allowed arena st (HeapCall.kmalloc size grants run))
    (hlarge : pgSize - slobUnit ≤ size) (hroom : size ≤ pgSize * 2 ^ findOrder (toInt size)) {p : Nat}
    (hrun : Returns (fun bound => kmalloc bound grants run st.heap size) (some p, s')) :
    Good arena st bs (grants 0) size p s' := by
  have hnot : ¬ size < pgSize - slobUnit := Nat.not_lt.2 hlarge
  have hmalloc : st.malloc size (grants 0) (some p) s' =
      { heap := s', small := st.small, bigs := ⟨s'.bigblocks.getD 0, p, findOrder (toInt size)⟩ :: st.bigs,
        taken := st.takenAfter (grants 0) (2 ^ findOrder (toInt size)) s' } := if_neg hnot
  have hstep : HeapStep arena st (HeapCall.kmalloc size grants run) _ := ⟨hallowed, some p, s', hrun, rfl⟩
  obtain ⟨bs', hinv, hpages⟩ := hstep.inv h
  have hbigs : (st.malloc size (grants 0) (some p) s').bigs =
      ⟨s'.bigblocks.getD 0, p, findOrder (toInt size)⟩ :: st.bigs := by rw [hmalloc]
  have hheap : (st.malloc size (grants 0) (some p) s').heap = s' := by rw [hmalloc]
  have hmem := hbigs ▸ @List.mem_cons_self _ (⟨s'.bigblocks.getD 0, p, findOrder (toInt size)⟩ : BigLive) st.bigs
  have hcount := ksize_large hinv hbigs
  obtain ⟨s'', -, hfree, -⟩ := kfree_large hinv hmem
  have hback : HeapStep arena (st.malloc size (grants 0) (some p) s')
    (HeapCall.kfreeLarge ⟨s'.bigblocks.getD 0, p, findOrder (toInt size)⟩) _ := ⟨hmem, s'', hfree, rfl⟩
  obtain ⟨bs'', hinv'', hpages''⟩ := hback.inv hinv
  rw [hheap] at hcount hfree
  refine ⟨⟨bs', hinv⟩, ⟨_, hcount, ?_⟩, ⟨s'', bs'', hfree, hinv''.shared.ring, ?_⟩⟩
  · unfold headerSize
    rw [if_neg hnot]
    exact hroom
  · refine h.nothing_lost hinv'' (hpages''.trans hpages) ?_ ?_
    · unfold HeapState.removeLarge
      rw [hmalloc]
    · unfold HeapState.removeLarge
      rw [hmalloc]
      exact List.erase_cons_head _ _

/-- `kmalloc` fails or returns a good block exactly for the sizes with `Enough`: between 4064 and 4079 an assertion
fails, and from 4080 on the size must not be rounded down. -/
theorem kmalloc_good (arena : Nat) (st : HeapState) (bs : List Block) (size : Nat) (grants : Nat → Option Nat)
    (run : Option Nat) (h : Inv arena st bs) (hsize : 1 ≤ size)
    (hready : Ready arena st (findOrder (toInt size)) (grants 0) run) :
    (∃ r s', Returns (fun bound => kmalloc bound grants run st.heap size) (r, s') ∧
        ∀ p, r = some p → Good arena st bs (grants 0) size p s') ↔ Enough bs (grants 0) run size := by
  by_cases hsmall : size + slobUnit + slobUnit < pgSize
  · have hlt : size < pgSize - slobUnit := by omega
    refine ⟨fun _ => Or.inl hsmall, fun _ => ?_⟩
    rcases kmalloc_small h hsize hsmall hready with ⟨-, -, hrun⟩ | ⟨page, m, s', bs', -, hrun, -, -⟩
    · exact ⟨none, st.heap, hrun, fun p hp => absurd hp (Option.some_ne_none p).symm⟩
    · refine ⟨some (m + 1), s', hrun, fun p hp => ?_⟩
      rw [← Option.some.inj hp]
      exact Good.of_small h ⟨⟨hsize, Or.inl hsmall⟩, hready⟩ hlt hrun
  by_cases hlt : size < pgSize - slobUnit
  · constructor
    · rintro ⟨r, s', ⟨limit, hrun⟩, -⟩
      have hpanic : kmalloc limit grants run st.heap size = done (r, s') := hrun limit le_rfl
      rw [kmalloc_panics st.heap hsmall hlt limit] at hpanic
      cases hpanic
    · rintro (h' | ⟨h', -⟩)
      · exact absurd h' hsmall
      · exact absurd hlt (Nat.not_lt.2 h')
  have hlarge : pgSize - slobUnit ≤ size := Nat.not_lt.1 hlt
  obtain ⟨r, st', bs', hrun, hresult⟩ := kmalloc_large h hlarge hready
  cases hresult with
  | noRecord hnone hgrant _ =>
      refine ⟨fun _ => Or.inr ⟨hlarge, Or.inr (Or.inr ⟨hgrant, hnone⟩)⟩, fun _ => ?_⟩
      exact ⟨none, st.heap, hrun, fun p hp => absurd hp (Option.some_ne_none p).symm⟩
  | noPages hnone _ _ _ =>
      refine ⟨fun _ => Or.inr ⟨hlarge, Or.inr (Or.inl hnone)⟩, fun _ => ?_⟩
      exact ⟨none, _, hrun, fun p hp => absurd hp (Option.some_ne_none p).symm⟩
  | @block bs' s' page bb q hq hfits _ hinv _ =>
      constructor
      · rintro ⟨r, t, hrun', hgood⟩
        obtain ⟨rfl, rfl⟩ := Prod.mk.inj (hrun'.unique hrun)
        obtain ⟨k, hk, hle⟩ := (hgood _ rfl).room
        have hcount := @ksize_large _ _ _ ⟨bb, q * pageUnits, findOrder (toInt size)⟩ st.bigs hinv rfl
        have heq : k = pgSize * 2 ^ findOrder (toInt size) := hk.unique hcount
        unfold headerSize at hle
        rw [if_neg hlt, heq] at hle
        exact Or.inr ⟨hlarge, Or.inl hle⟩
      · rintro (h' | ⟨-, hroom | hnone | ⟨hgrant, hnone⟩⟩)
        · exact absurd h' hsmall
        · refine ⟨_, _, hrun, fun p hp => ?_⟩
          rw [← Option.some.inj hp]
          exact Good.of_large h ⟨⟨hsize, Or.inr hlarge⟩, hready⟩ hlarge hroom hrun
        · exact absurd (hq.symm.trans hnone) (Option.some_ne_none q)
        · obtain ⟨b, hb, hle⟩ := hfits hgrant
          exact absurd (hnone b hb) (Nat.not_lt.2 hle)

/-- A block of 8193 bytes that is only two pages long. -/
theorem kmalloc_good_8193 : ¬ ∃ r s',
    Returns (fun bound => kmalloc bound (fun _ => some 1) (some 2) (HeapState.start 3 8).heap 8193) (r, s') ∧
      ∀ p, r = some p → Good 3 (HeapState.start 3 8) [] (some 1) 8193 p s' := by
  have hready : Ready 3 (HeapState.start 3 8) (findOrder (toInt 8193)) (some 1) (some 2) := by
    refine ⟨fun p hp => ?_, fun q hq => ?_⟩
    · obtain rfl : 1 = p := Option.some.inj hp
      exact ⟨by decide, List.not_mem_nil, fun l hl => absurd hl List.not_mem_nil⟩
    · obtain rfl : 2 = q := Option.some.inj hq
      refine ⟨by decide, fun x _ => List.not_mem_nil, fun l hl => absurd hl List.not_mem_nil, fun p hp x hx hxp => ?_⟩
      obtain rfl : 1 = p := Option.some.inj hp
      have hlow : 2 * pageUnits ≤ x := hx.1
      have hhigh : x < 1 * pageUnits + pageUnits := hxp.2
      omega
  intro hgood
  rcases (kmalloc_good 3 (HeapState.start 3 8) [] 8193 (fun _ => some 1) (some 2) (start_inv 3 8) (by decide) hready).1
    hgood with h | ⟨-, h | h | ⟨h, -⟩⟩
  · exact absurd h (by decide)
  · exact absurd h (by decide)
  · exact absurd h (Option.some_ne_none 2)
  · exact absurd h (Option.some_ne_none 1)

end Slob
end TriOS
