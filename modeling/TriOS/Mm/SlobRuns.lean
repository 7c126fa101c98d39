import TriOS.Library.Transition
import TriOS.Mm.SlobList

/-!
# SlobRuns — the heap of kmalloc over whole runs

The blocks in use stand beside the state of `kmalloc.c`: those that `kmalloc` has handed out, with their
headers, and the records of the large ones with their pages. Every step keeps the free blocks, the blocks
in use and the pages of the large ones apart, and no unit of a page is lost.
-/

namespace TriOS
namespace Slob

open Blocks OneWay Outcome

/-! ## Blocks in use -/

/-- The free blocks `bs` and the blocks in use `us` share out the pages that `slob_alloc` has taken. -/
structure Shared (arena : Nat) (s : Heap) (bs us : List Block) (taken : List Nat) : Prop where
  ring : FreeRing arena s bs
  used : ∀ u ∈ us, arena + 1 < u.start ∧ 0 < u.len
  apart : us.Pairwise Block.Disjoint
  free : ∀ b ∈ bs, ∀ u ∈ us, b.Disjoint u
  inside : ∀ p, Covers (bs ++ us) p → p / pageUnits ∈ taken
  sum : total bs + total us = pageUnits * taken.length

variable {arena : Nat} {s s' : Heap} {bs bs' us us' : List Block} {taken : List Nat} {x u : Block}
  {n m size : Nat} {page : Option Nat}

theorem covers_perm (h : us.Perm us') (p : Nat) : Covers us p ↔ Covers us' p := by
  unfold Covers
  simp only [h.mem_iff]

theorem total_perm (h : us.Perm us') : total us = total us' := by
  unfold total
  exact (h.map Block.len).sum_eq

theorem Shared.perm (h : Shared arena s bs us taken) (hperm : us.Perm us') : Shared arena s bs us' taken := by
  refine ⟨h.ring, fun u hu => h.used u (hperm.mem_iff.2 hu), ?_, fun b hb u hu => h.free b hb u (hperm.mem_iff.2 hu),
    fun p hp => h.inside p ?_, ?_⟩
  · exact (hperm.pairwise_iff fun hdis => Block.Disjoint.symm hdis).1 h.apart
  · rw [covers_append] at hp ⊢
    rwa [covers_perm hperm]
  · rw [← total_perm hperm]
    exact h.sum

/-- Where the page of a cell of a page is. -/
theorem page_of_mem {page p : Nat} (h : (pageBlock page).Mem p) : p / pageUnits = page := by
  obtain ⟨hlow, hhigh⟩ := h
  have hunits : pageUnits = 256 := rfl
  unfold Block.stop at hhigh
  unfold pageBlock at hlow hhigh
  dsimp only at hlow hhigh
  rw [hunits] at hlow hhigh ⊢
  omega

theorem Shared.pageFree (h : Shared arena s bs us taken) {page : Nat} (harena : arena + 1 < (pageBlock page).start)
    (hfresh : page ∉ taken) : PageFree arena bs page := by
  refine ⟨harena, fun b hb p hp hbp => hfresh ?_⟩
  rw [← page_of_mem hp]
  exact h.inside p ⟨b, List.mem_append_left _ hb, hbp⟩

/-- The block that `slob_alloc` takes joins the blocks in use. -/
theorem Shared.alloc (h : Shared arena s bs us taken) (hfresh : ∀ p, page = some p → p ∉ taken) (hn : 0 < n)
    (ha : Allocated arena s bs page n m s' bs') :
    Shared arena s' bs' (⟨m, n⟩ :: us) (page.toList ++ taken) ∧ ∀ u ∈ us, s'.units u.start = s.units u.start := by
  -- The cells of the blocks in use are not among the ones that were there to take.
  have hnot : ∀ u ∈ us, ∀ p, u.Mem p → ¬ Covers (grown page ++ bs) p := by
    rintro u hu p hp ⟨b, hb, hbp⟩
    rcases List.mem_append.1 hb with hb | hb
    · obtain ⟨q, hq, rfl⟩ := List.mem_map.1 hb
      have htaken := h.inside p ⟨u, List.mem_append_right _ hu, hp⟩
      rw [page_of_mem hbp] at htaken
      exact hfresh q (by simpa using hq) htaken
    · exact h.free b hb u hu p hbp hp
  refine ⟨⟨ha.ring, fun u hu => ?_, List.pairwise_cons.2 ⟨fun u hu p hp hup => ?_, h.apart⟩,
    fun b hb u hu => ?_, fun p hp => ?_, ?_⟩, fun u hu => ?_⟩
  · rcases List.mem_cons.1 hu with rfl | hu
    · exact ⟨ha.start, hn⟩
    · exact h.used u hu
  · exact hnot u hu p hup ((ha.covers p).1 (Or.inr hp))
  · rcases List.mem_cons.1 hu with rfl | hu
    · exact (ha.disjoint b hb).symm
    · exact fun p hbp hup => hnot u hu p hup ((ha.covers p).1 (Or.inl ⟨b, hb, hbp⟩))
  · have hcov : Covers (grown page ++ bs) p ∨ Covers us p := by
      rw [covers_append, covers_cons] at hp
      rcases hp with hp | hp | hp
      · exact Or.inl ((ha.covers p).1 (Or.inl hp))
      · exact Or.inl ((ha.covers p).1 (Or.inr hp))
      · exact Or.inr hp
    rcases hcov with hcov | hcov
    · rw [covers_append] at hcov
      rcases hcov with ⟨b, hb, hbp⟩ | hcov
      · obtain ⟨q, hq, rfl⟩ := List.mem_map.1 hb
        rw [page_of_mem hbp]
        exact List.mem_append_left _ hq
      · exact List.mem_append_right _ (h.inside p (covers_append.2 (Or.inl hcov)))
    · exact List.mem_append_right _ (h.inside p (covers_append.2 (Or.inr hcov)))
  · have htotal := ha.total
    have hold := h.sum
    have hgrown : total (grown page) = pageUnits * page.toList.length := by
      cases page with
      | none => rfl
      | some page => exact (Nat.mul_one _).symm
    rw [total_append] at htotal
    rw [total_cons, List.length_append, Nat.mul_add, ← hgrown]
    dsimp only
    omega
  · obtain ⟨hstart, hlen⟩ := h.used u hu
    exact ha.same _ (by omega) (hnot u hu _ ⟨le_rfl, Nat.lt_add_of_pos_right hlen⟩)

/-- The block that is given to `slob_free` joins the free blocks. -/
theorem Shared.giveBack (h : Shared arena s bs (x :: us) taken) (hsize : size ≠ 0 → slobUnits size = x.len)
    (hunits : size = 0 → s.units x.start = x.len) : ∃ s' bs',
      Returns (fun bound => slobFree bound s x.start size) s' ∧ Shared arena s' bs' us taken ∧ SameBig s s' ∧
      total bs' = total bs + x.len ∧ ∀ u ∈ us, s'.units u.start = s.units u.start := by
  obtain ⟨hstart, hlen⟩ := h.used x List.mem_cons_self
  obtain ⟨hxus, hus⟩ := List.pairwise_cons.1 h.apart
  have hxbs : ∀ b ∈ bs, x.Disjoint b := fun b hb => (h.free b hb x List.mem_cons_self).symm
  obtain ⟨s', bs', hrun, hring, hins, hrest, hframe⟩ := slobFree_spec h.ring hlen hstart hxbs hsize hunits
  refine ⟨s', bs', hrun, ⟨hring, fun u hu => h.used u (List.mem_cons_of_mem _ hu), hus,
    fun b hb u hu p hbp hup => ?_, fun p hp => h.inside p ?_, ?_⟩, hrest, hins.total, fun u hu => ?_⟩
  · rcases (hins.covers p).1 ⟨b, hb, hbp⟩ with ⟨c, hc, hcp⟩ | hxp
    · exact h.free c hc u (List.mem_cons_of_mem _ hu) p hcp hup
    · exact hxus u hu p hxp hup
  · rw [covers_append, hins.covers] at hp
    rw [covers_append, covers_cons]
    rw [or_assoc] at hp
    exact hp
  · have htotal := h.sum
    rw [total_cons] at htotal
    rw [hins.total]
    omega
  · obtain ⟨hu₀, hulen⟩ := h.used u (List.mem_cons_of_mem _ hu)
    have hmem : u.Mem u.start := ⟨le_rfl, Nat.lt_add_of_pos_right hulen⟩
    refine hframe _ (fun heq => ?_) fun hin => ?_
    · exact hxus u hu u.start ⟨heq.ge, heq ▸ Nat.lt_add_of_pos_right hlen⟩ hmem
    · rcases List.mem_cons.1 hin with heq | hin
      · omega
      · obtain ⟨b, hb, heq⟩ := List.mem_map.1 hin
        refine h.free b hb u (List.mem_cons_of_mem _ hu) u.start ⟨heq.le, ?_⟩ hmem
        rw [← heq]
        exact Nat.lt_add_of_pos_right (h.ring.pos b hb)

/-! ## Large blocks -/

/-- A large block: its record, its first unit and its order. -/
structure BigLive where
  bb : Nat
  pages : Nat
  order : Nat
  deriving DecidableEq

/-- The block of the record. -/
def BigLive.header (l : BigLive) : Block := ⟨l.bb, slobUnits sizeofBigblock⟩

/-- The units of a run of pages. -/
def runBlock (pages order : Nat) : Block := ⟨pages, 2 ^ order * pageUnits⟩

/-- The pages of the block. -/
def BigLive.run (l : BigLive) : Block := runBlock l.pages l.order

/-- The list `bigblocks`. -/
def BigList (big : Nat → Bigblock) : Option Nat → List BigLive → Prop
  | head, [] => head = none
  | head, l :: ls => head = some l.bb ∧ (big l.bb).pages = l.pages ∧ (big l.bb).order = l.order ∧
      BigList big (big l.bb).next ls

variable {big big' : Nat → Bigblock} {head last : Option Nat} {ls pre post : List BigLive} {l : BigLive}
  {block : Nat}

theorem BigList.congr (h : BigList big head ls) (hsame : ∀ l ∈ ls, big' l.bb = big l.bb) :
    BigList big' head ls := by
  induction ls generalizing head with
  | nil => exact h
  | cons l ls ih =>
      obtain ⟨hhead, hpages, horder, hrest⟩ := h
      have hl := hsame l List.mem_cons_self
      refine ⟨hhead, ?_, ?_, ?_⟩
      · rw [hl]
        exact hpages
      · rw [hl]
        exact horder
      · rw [hl]
        exact ih hrest fun l' hl' => hsame l' (List.mem_cons_of_mem _ hl')

/-- No record has the block. -/
theorem BigList.not_found (h : BigList big head ls) (hne : ∀ l ∈ ls, l.pages ≠ block) :
    ∀ bound, ls.length < bound → kfreeLoop big block bound head last = done none := by
  intro bound hbound
  induction ls generalizing head last bound with
  | nil =>
      obtain ⟨k, rfl⟩ := Nat.exists_eq_succ_of_ne_zero (Nat.ne_of_gt hbound)
      rw [show head = none from h]
      rfl
  | cons l ls ih =>
      obtain ⟨k, rfl⟩ := Nat.exists_eq_succ_of_ne_zero (Nat.ne_of_gt (Nat.zero_lt_of_lt hbound))
      obtain ⟨rfl, hpages, _, hrest⟩ := h
      have hl : (big l.bb).pages ≠ block := hpages ▸ hne l List.mem_cons_self
      rw [kfreeLoop, if_neg hl]
      exact ih hrest (fun l' hl' => hne l' (List.mem_cons_of_mem _ hl')) k (Nat.lt_of_succ_lt_succ hbound)

/-- The record before a place of the list. -/
def lastRecord (last : Option Nat) (pre : List BigLive) : Option Nat := (pre.getLast?.map BigLive.bb).or last

theorem lastRecord_cons (last : Option Nat) (l : BigLive) (pre : List BigLive) :
    lastRecord last (l :: pre) = lastRecord (some l.bb) pre := by
  unfold lastRecord
  cases pre with
  | nil => rfl
  | cons l' pre => rw [List.getLast?_cons_cons]; simp [List.getLast?_cons]

/-- The loop of `kfree` finds the first record with the block. -/
theorem BigList.found (h : BigList big head (pre ++ l :: post)) (hpages : l.pages = block)
    (hne : ∀ l ∈ pre, l.pages ≠ block) : ∀ bound, pre.length < bound →
      kfreeLoop big block bound head last = done (some (l.bb, lastRecord last pre)) := by
  intro bound hbound
  induction pre generalizing head last bound with
  | nil =>
      obtain ⟨k, rfl⟩ := Nat.exists_eq_succ_of_ne_zero (Nat.ne_of_gt hbound)
      obtain ⟨rfl, hl, _, _⟩ := h
      rw [kfreeLoop, if_pos (hl.trans hpages)]
      rfl
  | cons l' pre ih =>
      obtain ⟨k, rfl⟩ := Nat.exists_eq_succ_of_ne_zero (Nat.ne_of_gt (Nat.zero_lt_of_lt hbound))
      obtain ⟨rfl, hl', _, hrest⟩ := h
      rw [kfreeLoop, if_neg (hl' ▸ hne l' List.mem_cons_self), lastRecord_cons]
      exact ih hrest (fun l hl => hne l (List.mem_cons_of_mem _ hl)) k (Nat.lt_of_succ_lt_succ hbound)

/-- `*last = bb->next` takes the record out of the list. -/
theorem BigList.unlink (h : BigList s.big s.bigblocks (pre ++ l :: post))
    (hnodup : ((pre ++ l :: post).map BigLive.bb).Nodup) :
    BigList (unlinkBig s l.bb (lastRecord none pre)).big (unlinkBig s l.bb (lastRecord none pre)).bigblocks
      (pre ++ post) := by
  rcases List.eq_nil_or_concat pre with rfl | ⟨front, y, rfl⟩
  · exact h.2.2.2
  · rw [List.concat_eq_append] at h hnodup ⊢
    have hlast : lastRecord none (front ++ [y]) = some y.bb := by
      rw [lastRecord, List.getLast?_concat]
      rfl
    rw [hlast]
    have hy : y.bb ∉ (front ++ l :: post).map BigLive.bb := by
      rw [List.append_assoc, List.map_append] at hnodup
      intro hmem
      have hmid : (y.bb :: (front ++ l :: post).map BigLive.bb).Nodup := by
        rw [List.map_append]
        exact (List.perm_middle.nodup_iff).1 hnodup
      exact (List.nodup_cons.1 hmid).1 hmem
    have hother : ∀ l' ∈ front ++ l :: post, (unlinkBig s l.bb (some y.bb)).big l'.bb = s.big l'.bb := by
      intro l' hl'
      refine Function.update_of_ne (fun heq => hy ?_) _ _
      rw [← heq]
      exact List.mem_map_of_mem hl'
    have hyset : (unlinkBig s l.bb (some y.bb)).big y.bb = { s.big y.bb with next := (s.big l.bb).next } :=
      Function.update_self _ _ _
    -- Along the records before `y` nothing changes; `y` points past the record.
    have hgo : ∀ (front' : List BigLive) (head : Option Nat), (∀ l' ∈ front', l' ∈ front) →
        BigList s.big head (front' ++ [y] ++ l :: post) →
        BigList (unlinkBig s l.bb (some y.bb)).big head (front' ++ [y] ++ post) := by
      intro front'
      induction front' with
      | nil =>
          rintro head _ ⟨rfl, hpages, horder, hnext, hlp, hlo, hrest⟩
          refine ⟨rfl, ?_, ?_, ?_⟩
          · rw [hyset]
            exact hpages
          · rw [hyset]
            exact horder
          · rw [hyset]
            exact BigList.congr hrest fun l' hl' =>
              hother l' (List.mem_append_right _ (List.mem_cons_of_mem _ hl'))
      | cons z front' ih =>
          rintro head hsub ⟨rfl, hpages, horder, hrest⟩
          have hz := hother z (List.mem_append_left _ (hsub z List.mem_cons_self))
          refine ⟨rfl, ?_, ?_, ?_⟩
          · rw [hz]
            exact hpages
          · rw [hz]
            exact horder
          · rw [hz]
            exact ih _ (fun l' hl' => hsub l' (List.mem_cons_of_mem _ hl')) hrest
    exact hgo front s.bigblocks (fun _ h => h) h

/-! ## The invariant -/

/-- The heap with the blocks that are in use: the small ones with their headers, the large ones in the
order of `bigblocks`, and the pages that `slob_alloc` has taken. -/
structure HeapState where
  heap : Heap
  small : List Block
  bigs : List BigLive
  taken : List Nat

/-- The blocks in use that `slob_alloc` has handed out. -/
def HeapState.used (st : HeapState) : List Block := st.small ++ st.bigs.map BigLive.header

/-- The invariant of the heap, with its free blocks. -/
structure Inv (arena : Nat) (st : HeapState) (bs : List Block) : Prop where
  shared : Shared arena st.heap bs st.used st.taken
  small : ∀ u ∈ st.small, st.heap.units u.start = u.len ∧ 2 ≤ u.len
  big : BigList st.heap.big st.heap.bigblocks st.bigs
  runs : (st.bigs.map BigLive.run).Pairwise Block.Disjoint
  above : ∀ l ∈ st.bigs, arena + 1 < l.pages ∧ l.pages % pageUnits = 0
  apart : ∀ l ∈ st.bigs, ∀ p, l.run.Mem p → p / pageUnits ∉ st.taken

/-- What the page allocator may answer: pages behind `arena` that it has not given away. -/
structure Ready (arena : Nat) (st : HeapState) (order : Nat) (grant run : Option Nat) : Prop where
  page : ∀ p, grant = some p → arena + 1 < (pageBlock p).start ∧ p ∉ st.taken ∧
    ∀ l ∈ st.bigs, (pageBlock p).Disjoint l.run
  pages : ∀ q, run = some q → arena + 1 < q * pageUnits ∧
    (∀ x, (runBlock (q * pageUnits) order).Mem x → x / pageUnits ∉ st.taken) ∧
    (∀ l ∈ st.bigs, (runBlock (q * pageUnits) order).Disjoint l.run) ∧
    ∀ p, grant = some p → (runBlock (q * pageUnits) order).Disjoint (pageBlock p)

variable {st : HeapState} {order : Nat} {grants : Nat → Option Nat} {run : Option Nat}

theorem Inv.bb_nodup (h : Inv arena st bs) : (st.bigs.map BigLive.bb).Nodup := by
  have hpair := h.shared.apart
  unfold HeapState.used at hpair
  have hheaders := (List.pairwise_append.1 hpair).2.1
  rw [List.pairwise_map] at hheaders
  rw [List.Nodup, List.pairwise_map]
  refine hheaders.imp fun {a b} hdis heq => ?_
  have hpos : (0 : Nat) < slobUnits sizeofBigblock := by decide
  refine hdis a.bb ⟨le_rfl, Nat.lt_add_of_pos_right hpos⟩ ⟨heq.ge, ?_⟩
  rw [heq]
  exact Nat.lt_add_of_pos_right hpos

/-- The state once `slob_alloc` has taken a block for a small size. -/
def HeapState.addSmall (st : HeapState) (s' : Heap) (page : Option Nat) (u : Block) : HeapState :=
  { heap := s', small := u :: st.small, bigs := st.bigs, taken := page.toList ++ st.taken }

theorem Inv.addSmall (h : Inv arena st bs) (hready : Ready arena st order (grants 0) run)
    (hpage : page = none ∨ page = grants 0) (hn : 2 ≤ n) (ha : Allocated arena st.heap bs page n m s' bs') :
    Inv arena (st.addSmall s' page ⟨m, n⟩) bs' := by
  have hgrant : ∀ p, page = some p → arena + 1 < (pageBlock p).start ∧ p ∉ st.taken ∧
      ∀ l ∈ st.bigs, (pageBlock p).Disjoint l.run := by
    intro p hp
    rcases hpage with hpage | hpage
    · rw [hpage] at hp
      cases hp
    · exact hready.page p (hpage.symm.trans hp)
  obtain ⟨hshared, hsame⟩ := h.shared.alloc (fun p hp => (hgrant p hp).2.1) (by omega) ha
  refine ⟨hshared, fun u hu => ?_, ?_, h.runs, h.above, fun l hl p hp hmem => ?_⟩
  · rcases List.mem_cons.1 hu with rfl | hu
    · exact ⟨ha.units, hn⟩
    · refine ⟨?_, (h.small u hu).2⟩
      rw [← (h.small u hu).1]
      exact hsame u (List.mem_append_left _ hu)
  · show BigList s'.big s'.bigblocks st.bigs
    rw [ha.big, ha.bigblocks]
    exact h.big
  · rcases List.mem_append.1 hmem with hmem | hmem
    · have hp' : page = some (p / pageUnits) := by simpa using hmem
      refine (hgrant _ hp').2.2 l hl p ?_ hp
      have hunits : pageUnits = 256 := rfl
      unfold Block.Mem Block.stop pageBlock
      dsimp only
      rw [hunits]
      omega
    · exact h.apart l hl p hp hmem

/-- A small size: `kmalloc` fails only without a free block and a page. -/
theorem kmalloc_small (h : Inv arena st bs) (hsize : 1 ≤ size) (hsmall : size + slobUnit + slobUnit < pgSize)
    (hready : Ready arena st order (grants 0) run) :
    ((∀ b ∈ bs, b.len < slobUnits (size + slobUnit)) ∧ grants 0 = none ∧
        Returns (fun bound => kmalloc bound grants run st.heap size) (none, st.heap)) ∨
      ∃ page m s' bs', (page = none ∨ page = grants 0) ∧
        Returns (fun bound => kmalloc bound grants run st.heap size) (some (m + 1), s') ∧
        Allocated arena st.heap bs page (slobUnits (size + slobUnit)) m s' bs' ∧
        Inv arena (st.addSmall s' page ⟨m, slobUnits (size + slobUnit)⟩) bs' := by
  have hn : 2 ≤ slobUnits (size + slobUnit) := by
    unfold slobUnits slobUnit
    omega
  have hlt : size < pgSize - slobUnit := by omega
  have hpage : ∀ p, grants 0 = some p → PageFree arena bs p := fun p hp =>
    h.shared.pageFree (hready.page p hp).1 (hready.page p hp).2.1
  rcases slobAlloc_spec h.shared.ring hn hsmall hpage with
    ⟨hnone, hgrant, limit, hrun⟩ | ⟨page, m, s', bs', hfrom, _, ⟨limit, hrun⟩, ha⟩
  · refine Or.inl ⟨hnone, hgrant, limit, fun bound hbound => ?_⟩
    have hrun : slobAlloc bound grants st.heap (size + slobUnit) = done (none, st.heap) := hrun bound hbound
    simp only [kmalloc, if_pos hlt, hrun, bind_done, Option.map_none, pure_eq_done]
  · refine Or.inr ⟨page, m, s', bs', hfrom, ⟨limit, fun bound hbound => ?_⟩, ha, h.addSmall hready hfrom hn ha⟩
    have hrun : slobAlloc bound grants st.heap (size + slobUnit) = done (some m, s') := hrun bound hbound
    simp only [kmalloc, if_pos hlt, hrun, bind_done, Option.map_some, pure_eq_done]

end Slob
end TriOS
