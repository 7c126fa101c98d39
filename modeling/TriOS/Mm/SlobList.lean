import TriOS.Mm.Slob

/-!
# SlobList — the list of the free blocks

`slob_free` puts a block at its place in the order of the addresses, joined with its neighbours, and
`slob_alloc` takes the first block that is large enough from where `slobfree` points to.
-/

namespace TriOS
namespace Slob

open Blocks OneWay Outcome

/-- The free blocks behind `arena`, in the order of their addresses. -/
structure FreeRing (arena : Nat) (s : Heap) (bs : List Block) : Prop where
  path : Path s.next arena (bs.map Block.start) arena
  spaced : Spaced (⟨arena, 1⟩ :: bs)
  pos : ∀ b ∈ bs, 0 < b.len
  units : ∀ b ∈ (⟨arena, 1⟩ : Block) :: bs, s.units b.start = b.len
  rover : s.slobfree ∈ arena :: bs.map Block.start

variable {arena : Nat} {s s' : Heap} {bs bs' pre post : List Block} {x y b : Block} {p cur n : Nat}

theorem FreeRing.ascending (h : FreeRing arena s bs) :
    (arena :: bs.map Block.start).Pairwise (· < ·) := by
  have hmap : ((⟨arena, 1⟩ :: bs).map Block.start).Pairwise (· < ·) := by
    rw [List.pairwise_map]
    refine h.spaced.imp fun hlt => ?_
    exact (Nat.le_add_right _ _).trans_lt hlt
  exact hmap

theorem FreeRing.nodup (h : FreeRing arena s bs) : (arena :: bs.map Block.start).Nodup :=
  h.ascending.imp Nat.ne_of_lt

theorem FreeRing.arena_lt (h : FreeRing arena s bs) (hb : b ∈ bs) : arena + 1 < b.start :=
  (List.pairwise_cons.1 h.spaced).1 b hb

/-! ## slob_free -/

/-- The position loop ends at the node behind which the block belongs. -/
theorem reinsertion_iff (h : FreeRing arena s bs) (harena : arena < n) (hn : n ∉ bs.map Block.start)
    (hcur : cur ∈ arena :: bs.map Block.start) :
    Reinsertion s.next n cur ↔ cur < n ∧ ∀ z ∈ arena :: bs.map Block.start, z ≤ cur ∨ n < z := by
  unfold Reinsertion
  rcases h.path.ascending h.ascending hcur with ⟨hend, hlast⟩ | ⟨hup, hmem, hbetween⟩
  · have hfirst := hlast arena List.mem_cons_self
    rw [hend]
    constructor
    · intro hstop
      exact ⟨by omega, fun z hz => Or.inl (hlast z hz)⟩
    · rintro ⟨hlt, _⟩
      exact Or.inr ⟨hfirst, Or.inl hlt⟩
  · have hne : n ≠ s.next cur := fun heq => hn (heq ▸ hmem)
    constructor
    · intro hstop
      refine ⟨by omega, fun z hz => ?_⟩
      rcases hbetween z hz with hz | hz
      · exact Or.inl hz
      · exact Or.inr (by omega)
    · rintro ⟨hlt, hall⟩
      rcases hall _ (List.mem_cons_of_mem _ hmem) with hz | hz
      · omega
      · exact Or.inl ⟨hlt, hz⟩

theorem slobFreeLoop_eq_walk (next : Nat → Nat) (n bound cur : Nat) :
    slobFreeLoop next n bound cur =
      match walk next (Reinsertion next n) bound cur with
      | some c => done c
      | none => fuel := by
  induction bound generalizing cur with
  | zero => rfl
  | succ bound ih =>
      rw [slobFreeLoop, walk]
      split
      · rfl
      · exact ih _

/-- The last of the blocks before the place of a block. -/
def lastStart (arena : Nat) (pre : List Block) : Nat := (pre.map Block.start).getLastD arena

theorem lastStart_concat (arena : Nat) (pre : List Block) (y : Block) :
    lastStart arena (pre ++ [y]) = y.start := by
  rw [lastStart, List.map_append, List.map_singleton, List.getLastD_eq_getLast?, List.getLast?_concat,
    Option.getD_some]

theorem lastStart_mem (arena : Nat) (pre : List Block) : lastStart arena pre ∈ arena :: pre.map Block.start :=
  getLastD_mem _ _

theorem slobFreeLoop_spec (h : FreeRing arena s (pre ++ post)) (harena : arena < n)
    (hpre : ∀ a ∈ pre, a.start < n) (hpost : ∀ c ∈ post, n < c.start) :
    ∀ bound, (pre ++ post).length < bound →
      slobFreeLoop s.next n bound s.slobfree = done (lastStart arena pre) := by
  have hn : n ∉ (pre ++ post).map Block.start := by
    intro hmem
    obtain ⟨a, ha, rfl⟩ := List.mem_map.1 hmem
    rcases List.mem_append.1 ha with ha | ha
    · exact Nat.lt_irrefl _ (hpre a ha)
    · exact Nat.lt_irrefl _ (hpost a ha)
  have hsub : ∀ z ∈ arena :: pre.map Block.start, z ∈ arena :: (pre ++ post).map Block.start := by
    intro z hz
    rw [List.map_append]
    exact List.mem_append_left (post.map Block.start) hz
  have hlow : ∀ z ∈ arena :: pre.map Block.start, z < n ∧ z ≤ lastStart arena pre := by
    intro z hz
    refine ⟨?_, ?_⟩
    · rcases List.mem_cons.1 hz with rfl | hz
      · exact harena
      · obtain ⟨a, ha, rfl⟩ := List.mem_map.1 hz
        exact hpre a ha
    · have hsorted : (arena :: pre.map Block.start).Pairwise (· < ·) := by
        have hall := h.ascending
        rw [List.map_append] at hall
        exact (List.pairwise_append.1 (show ((arena :: pre.map Block.start) ++ post.map Block.start).Pairwise _
          from hall)).1
      exact le_getLastD hsorted hz
  have hlast := hlow _ (lastStart_mem arena pre)
  have hstop : ∀ z ∈ arena :: (pre ++ post).map Block.start,
      Reinsertion s.next n z ↔ z = lastStart arena pre := by
    intro z hz
    rw [reinsertion_iff h harena hn hz]
    constructor
    · rintro ⟨hlt, hall⟩
      have hle := hall _ (hsub _ (lastStart_mem arena pre))
      rcases List.mem_cons.1 hz with rfl | hz
      · have := (hlow z List.mem_cons_self).2
        omega
      · rw [List.map_append] at hz
        rcases List.mem_append.1 hz with hz | hz
        · have := (hlow z (List.mem_cons_of_mem _ hz)).2
          omega
        · obtain ⟨c, hc, rfl⟩ := List.mem_map.1 hz
          have := hpost c hc
          omega
    · rintro rfl
      refine ⟨hlast.1, fun y hy => ?_⟩
      rcases List.mem_cons.1 hy with rfl | hy
      · exact Or.inl (hlow y List.mem_cons_self).2
      · rw [List.map_append] at hy
        rcases List.mem_append.1 hy with hy | hy
        · exact Or.inl (hlow y (List.mem_cons_of_mem _ hy)).2
        · obtain ⟨c, hc, rfl⟩ := List.mem_map.1 hy
          exact Or.inr (hpost c hc)
  obtain ⟨ys, hpath, hperm⟩ := h.path.enter h.rover
  have hmem := hsub _ (lastStart_mem arena pre)
  obtain ⟨d, hd, hdstop, hwalk⟩ := hpath.walk_stops (hperm.mem_iff.2 hmem) ((hstop _ hmem).2 rfl)
  intro bound hbound
  have hlen : ys.length < bound := by
    have := hperm.length_eq
    simp only [List.length_cons, List.length_map] at this
    omega
  rw [slobFreeLoop_eq_walk, hwalk bound hlen, (hstop d (hperm.mem_iff.1 hd)).1 hdstop]

/-- The parts of the state that the list of the free blocks does not touch. -/
structure SameBig (s s' : Heap) : Prop where
  big : s'.big = s.big
  bigblocks : s'.bigblocks = s.bigblocks
  nrFree : s'.nrFree = s.nrFree

theorem SameBig.refl (s : Heap) : SameBig s s := ⟨rfl, rfl, rfl⟩

theorem SameBig.trans {t : Heap} (h : SameBig s s') (h' : SameBig s' t) : SameBig s t :=
  ⟨h'.big.trans h.big, h'.bigblocks.trans h.bigblocks, h'.nrFree.trans h.nrFree⟩

/-- The block `x` has a place between the blocks `pre` and `post`. -/
structure Fits (arena : Nat) (pre post : List Block) (x : Block) : Prop where
  pos : 0 < x.len
  arena : arena + 1 < x.start
  left : ∀ a ∈ pre, a.stop ≤ x.start
  right : ∀ c ∈ post, x.stop ≤ c.start

/-- The first half of the end of `slob_free`: the block has become `x'`, and points to the first of the
blocks `post'` that are left behind it. -/
structure NextJoined (arena : Nat) (s : Heap) (pre post : List Block) (x : Block) (s' : Heap) (x' : Block)
    (post' : List Block) : Prop where
  start : x'.start = x.start
  stop : x.stop ≤ x'.stop
  units : s'.units x.start = x'.len
  next : s'.next x.start = (post'.map Block.start).headD arena
  same : ∀ a, a ≠ x.start → s'.units a = s.units a ∧ s'.next a = s.next a
  tail : Tail s.next (post'.map Block.start) arena
  subset : ∀ c ∈ post', c ∈ post
  spaced : Spaced (x' :: post')
  covers : ∀ p, Covers (x' :: post') p ↔ Covers post p ∨ x.Mem p
  total : total (x' :: post') = total post + x.len
  rest : SameBig s s'

theorem slobJoinNext_spec (h : FreeRing arena s (pre ++ post)) (hx : s.units x.start = x.len)
    (hfit : Fits arena pre post x) : ∃ x' post',
      NextJoined arena s pre post x (slobJoinNext s x.start (lastStart arena pre)) x' post' := by
  have hpath := h.path
  rw [List.map_append] at hpath
  obtain ⟨hfront, htail⟩ := path_append.1 hpath
  have hnext : s.next (lastStart arena pre) = (post.map Block.start).headD arena := hfront.last
  have hspaced : Spaced post := by
    have hall := h.spaced
    exact (List.pairwise_append.1 (List.pairwise_cons.1 hall).2).2.1
  have hstop : x.stop = x.start + x.len := rfl
  have harena := hfit.arena
  cases post with
  | nil =>
      have hne : ¬ x.start + s.units x.start = s.next (lastStart arena pre) := by
        rw [hnext, hx]
        exact fun heq => by
          have heq : x.start + x.len = arena := heq
          omega
      refine ⟨x, [], rfl, le_rfl, ?_, ?_, fun a ha => ?_, trivial, fun c hc => hc, List.pairwise_singleton _ _,
        fun p => ?_, Nat.add_comm _ _, ?_⟩
      · rw [slobJoinNext, if_neg hne]
        exact hx
      · rw [slobJoinNext, if_neg hne, hnext]
        exact Function.update_self _ _ _
      · rw [slobJoinNext, if_neg hne]
        exact ⟨rfl, Function.update_of_ne ha _ _⟩
      · rw [covers_cons]
        exact or_comm
      · rw [slobJoinNext, if_neg hne]
        exact ⟨rfl, rfl, rfl⟩
  | cons z post =>
      have hnext : s.next (lastStart arena pre) = z.start := hnext
      have hzu : s.units z.start = z.len := h.units z (by simp)
      have hzx := hfit.right z List.mem_cons_self
      have hz : z.start ≠ x.start := by
        have := hfit.pos
        omega
      obtain ⟨hzpost, hpost⟩ := List.pairwise_cons.1 hspaced
      by_cases hjoin : x.start + s.units x.start = s.next (lastStart arena pre)
      · have htouch : x.stop = z.start := by
          rw [hx, hnext] at hjoin
          exact hjoin
        have hz' : z.stop = z.start + z.len := rfl
        refine ⟨⟨x.start, x.len + z.len⟩, post, rfl, ?_, ?_, ?_, fun a ha => ?_, ?_,
          fun c hc => List.mem_cons_of_mem _ hc, List.pairwise_cons.2 ⟨fun c hc => ?_, hpost⟩, fun p => ?_, ?_, ?_⟩
        · exact Nat.add_le_add_left (Nat.le_add_right _ _) _
        · rw [slobJoinNext, if_pos hjoin, hnext, hzu, hx]
          exact Function.update_self _ _ _
        · rw [slobJoinNext, if_pos hjoin]
          have htarget : s.next z.start = (post.map Block.start).headD arena := by
            cases post with
            | nil => exact htail
            | cons c post => exact htail.1
          calc _ = s.next (s.next (lastStart arena pre)) := Function.update_self _ _ _
            _ = (post.map Block.start).headD arena := by rw [hnext, htarget]
        · rw [slobJoinNext, if_pos hjoin]
          exact ⟨Function.update_of_ne ha _ _, Function.update_of_ne ha _ _⟩
        · cases post with
          | nil => trivial
          | cons c post => exact htail.2
        · have := hzpost c hc
          have hsum : (Block.mk x.start (x.len + z.len)).stop = x.start + (x.len + z.len) := rfl
          omega
        · rw [covers_cons, covers_cons, mem_fuse htouch]
          tauto
        · simp only [total_cons]
          omega
        · rw [slobJoinNext, if_pos hjoin]
          exact ⟨rfl, rfl, rfl⟩
      · have hgap : x.stop < z.start := by
          rw [hx, hnext] at hjoin
          exact Nat.lt_of_le_of_ne hzx hjoin
        refine ⟨x, z :: post, rfl, le_rfl, ?_, ?_, fun a ha => ?_, htail, fun c hc => hc,
          List.pairwise_cons.2 ⟨fun c hc => ?_, hspaced⟩, fun p => ?_, Nat.add_comm _ _, ?_⟩
        · rw [slobJoinNext, if_neg hjoin]
          exact hx
        · rw [slobJoinNext, if_neg hjoin, hnext]
          exact Function.update_self _ _ _
        · rw [slobJoinNext, if_neg hjoin]
          exact ⟨rfl, Function.update_of_ne ha _ _⟩
        · rcases List.mem_cons.1 hc with rfl | hc
          · exact hgap
          · have := hzpost c hc
            have hz' : z.stop = z.start + z.len := rfl
            omega
        · rw [covers_cons]
          exact or_comm
        · rw [slobJoinNext, if_neg hjoin]
          exact ⟨rfl, rfl, rfl⟩

/-- The blocks `bs'` are the blocks `bs` with the block `x`. -/
structure Inserted (bs : List Block) (x : Block) (bs' : List Block) : Prop where
  covers : ∀ p, Covers bs' p ↔ Covers bs p ∨ x.Mem p
  total : total bs' = total bs + x.len
  inside : ∃ b ∈ bs', b.start ≤ x.start ∧ x.stop ≤ b.stop

/-- A block before the place that ends right there is the last one. -/
theorem Fits.last_of_touch (hfit : Fits arena pre post x) (hspaced : Spaced (⟨arena, 1⟩ :: pre))
    (hpos : ∀ b ∈ pre, 0 < b.len) (hy : y ∈ (⟨arena, 1⟩ : Block) :: pre) (hstop : y.stop = x.start) :
    ∃ front, pre = front ++ [y] := by
  have harena := hfit.arena
  rcases List.eq_nil_or_concat pre with rfl | ⟨front, l, rfl⟩
  · obtain rfl := List.mem_singleton.1 hy
    have hstop : arena + 1 = x.start := hstop
    omega
  · rw [List.concat_eq_append] at hspaced hy hpos hfit ⊢
    have hl : l ∈ front ++ [l] := List.mem_append_right _ List.mem_cons_self
    have hlx : l.start + l.len ≤ x.start := hfit.left l hl
    have hlpos := hpos l hl
    rw [← List.cons_append] at hspaced hy
    rcases List.mem_append.1 hy with hy | hy
    · have hlt := (List.pairwise_append.1 hspaced).2.2 y hy l List.mem_cons_self
      omega
    · rw [List.mem_singleton.1 hy]
      exact ⟨front, rfl⟩

theorem slobReinsert_spec (h : FreeRing arena s (pre ++ post)) (hx : s.units x.start = x.len)
    (hfit : Fits arena pre post x) : ∃ bs',
      FreeRing arena (slobReinsert s x.start (lastStart arena pre)) bs' ∧ Inserted (pre ++ post) x bs' ∧
      SameBig s (slobReinsert s x.start (lastStart arena pre)) ∧
      ∀ a, a ≠ x.start → a ∉ arena :: (pre ++ post).map Block.start →
        (slobReinsert s x.start (lastStart arena pre)).units a = s.units a := by
  obtain ⟨x', post', hj⟩ := slobJoinNext_spec h hx hfit
  generalize hs₁ : slobJoinNext s x.start (lastStart arena pre) = s₁ at *
  have hcurMem : lastStart arena pre ∈ arena :: (pre ++ post).map Block.start := by
    rw [List.map_append, ← List.cons_append]
    exact List.mem_append_left _ (lastStart_mem arena pre)
  have harena := hfit.arena
  have hspaced := h.spaced
  rw [← List.cons_append] at hspaced
  obtain ⟨hfront, _, hcross⟩ := List.pairwise_append.1 hspaced
  have hleft : ∀ a ∈ (⟨arena, 1⟩ : Block) :: pre, a.stop ≤ x.start := by
    intro a ha
    rcases List.mem_cons.1 ha with rfl | ha
    · exact harena.le
    · exact hfit.left a ha
  have hpre : ∀ b ∈ pre, 0 < b.len := fun b hb => h.pos b (List.mem_append_left _ hb)
  have hpost' : ∀ b ∈ post', 0 < b.len := fun b hb => h.pos b (List.mem_append_right _ (hj.subset b hb))
  have hx' : 0 < x'.len := by
    have hstop := hj.stop
    have hstart := hj.start
    have hpos := hfit.pos
    unfold Block.stop at hstop
    omega
  have hunits : ∀ b ∈ (⟨arena, 1⟩ : Block) :: pre, b.start ≠ x.start ∧ s₁.units b.start = b.len := by
    intro b hb
    have hlt : b.start < x.start := by
      have hle := hleft b hb
      have hpos : 0 < b.len := by
        rcases List.mem_cons.1 hb with rfl | hb
        · exact Nat.zero_lt_one
        · exact hpre b hb
      unfold Block.stop at hle
      omega
    refine ⟨Nat.ne_of_lt hlt, ?_⟩
    rw [(hj.same _ (Nat.ne_of_lt hlt)).1]
    refine h.units b ?_
    rw [← List.cons_append]
    exact List.mem_append_left _ hb
  have hbehind : ∀ c ∈ post', x'.stop < c.start := (List.pairwise_cons.1 hj.spaced).1
  have hunitsPost : ∀ c ∈ post', c.start ≠ x.start ∧ s₁.units c.start = c.len := by
    intro c hc
    have hlt := hbehind c hc
    have hne : c.start ≠ x.start := by
      have hstart := hj.start
      unfold Block.stop at hlt
      omega
    refine ⟨hne, ?_⟩
    rw [(hj.same _ hne).1]
    refine h.units c ?_
    rw [← List.cons_append]
    exact List.mem_append_right _ (hj.subset c hc)
  have hpath := h.path
  have hnodup := h.nodup
  rw [List.map_append] at hpath hnodup
  rw [← List.cons_append] at hnodup
  have hnodupFront := hnodup.of_append_left
  -- The block that `cur` points to.
  obtain ⟨y, hy, hycur⟩ : ∃ y ∈ (⟨arena, 1⟩ : Block) :: pre, y.start = lastStart arena pre :=
    List.mem_map.1 (show lastStart arena pre ∈ ((⟨arena, 1⟩ : Block) :: pre).map Block.start from
      lastStart_mem arena pre)
  obtain ⟨hyx, hyu⟩ := hunits y hy
  rw [hycur] at hyx hyu
  have hnextSame : ∀ z, z ≠ lastStart arena pre → z ≠ x.start →
      (slobReinsert s x.start (lastStart arena pre)).next z = s.next z := by
    intro z hz hzx
    unfold slobReinsert slobJoinPrev
    rw [hs₁, ← (hj.same z hzx).2]
    split <;> exact Function.update_of_ne hz _ _
  have hunitsSame : ∀ z, z ≠ lastStart arena pre →
      (slobReinsert s x.start (lastStart arena pre)).units z = s₁.units z := by
    intro z hz
    unfold slobReinsert slobJoinPrev
    rw [hs₁]
    split
    · exact Function.update_of_ne hz _ _
    · rfl
  have hsame : ∀ z ∈ arena :: pre.map Block.start, z ≠ (pre.map Block.start).getLastD arena →
      (slobReinsert s x.start (lastStart arena pre)).next z = s.next z := by
    intro z hz hne
    obtain ⟨b, hb, rfl⟩ : ∃ b ∈ (⟨arena, 1⟩ : Block) :: pre, b.start = z := List.mem_map.1 hz
    exact hnextSame _ hne (hunits b hb).1
  have hpostNe : ∀ c ∈ post', c.start ≠ lastStart arena pre ∧ c.start ≠ x.start := by
    intro c hc
    have hlt := hcross y hy c (hj.subset c hc)
    refine ⟨?_, (hunitsPost c hc).1⟩
    rw [← hycur]
    unfold Block.stop at hlt
    omega
  have htail : Tail (slobReinsert s x.start (lastStart arena pre)).next (post'.map Block.start) arena := by
    refine hj.tail.congr fun z hz => ?_
    obtain ⟨c, hc, rfl⟩ := List.mem_map.1 hz
    exact hnextSame _ (hpostNe c hc).1 (hpostNe c hc).2
  have hrest : SameBig s (slobReinsert s x.start (lastStart arena pre)) := by
    refine hj.rest.trans ?_
    unfold slobReinsert slobJoinPrev
    rw [hs₁]
    split <;> exact ⟨rfl, rfl, rfl⟩
  have hframe : ∀ a, a ≠ x.start → a ∉ arena :: (pre ++ post).map Block.start →
      (slobReinsert s x.start (lastStart arena pre)).units a = s.units a := by
    intro a hax hmem
    have hne : a ≠ lastStart arena pre := fun heq => hmem (heq ▸ hcurMem)
    rw [hunitsSame a hne, (hj.same a hax).1]
  by_cases hjoin : lastStart arena pre + s₁.units (lastStart arena pre) = x.start
  · -- The block is joined with the one before it.
    have htouch : y.stop = x.start := by
      rw [hyu, ← hycur] at hjoin
      exact hjoin
    obtain ⟨front, rfl⟩ := hfit.last_of_touch hfront hpre hy htouch
    have htouch' : y.stop = x'.start := htouch.trans hj.start.symm
    have hunitsCur : (slobReinsert s x.start (lastStart arena (front ++ [y]))).units
        (lastStart arena (front ++ [y])) = y.len + x'.len := by
      unfold slobReinsert slobJoinPrev
      rw [hs₁, if_pos hjoin, hyu, hj.units]
      exact Function.update_self _ _ _
    have hnextCur : (slobReinsert s x.start (lastStart arena (front ++ [y]))).next
        (lastStart arena (front ++ [y])) = (post'.map Block.start).headD arena := by
      unfold slobReinsert slobJoinPrev
      rw [hs₁, if_pos hjoin, ← hj.next]
      exact Function.update_self _ _ _
    have hpath' := hpath.splice hnodupFront hsame hnextCur htail
    have hstop : (Block.mk y.start (y.len + x'.len)).stop = x'.stop := by
      calc y.start + (y.len + x'.len) = y.stop + x'.len := (Nat.add_assoc _ _ _).symm
        _ = x'.stop := by rw [htouch']; rfl
    rw [← List.cons_append] at hfront
    obtain ⟨hhead, _, hlast⟩ := List.pairwise_append.1 hfront
    have hbefore : ∀ a ∈ (⟨arena, 1⟩ : Block) :: front, a.stop < y.start := fun a ha =>
      hlast a ha y List.mem_cons_self
    have hstarts : (front ++ ⟨y.start, y.len + x'.len⟩ :: post').map Block.start =
        (front ++ [y]).map Block.start ++ post'.map Block.start := by simp
    refine ⟨front ++ ⟨y.start, y.len + x'.len⟩ :: post', ⟨?_, ?_, fun b hb => ?_, fun b hb => ?_, ?_⟩,
      ⟨fun p => ?_, ?_, ⟨y.start, y.len + x'.len⟩, by simp, ?_, ?_⟩, hrest, hframe⟩
    · rw [hstarts]
      exact hpath'
    · refine List.pairwise_append.2 ⟨hhead, List.pairwise_cons.2 ⟨fun c hc => ?_, (List.pairwise_cons.1 hj.spaced).2⟩,
        fun a ha c hc => ?_⟩
      · rw [hstop]
        exact hbehind c hc
      · rcases List.mem_cons.1 hc with rfl | hc
        · exact hbefore a ha
        · exact hcross a (List.mem_append_left [y] ha) c (hj.subset c hc)
    · rcases List.mem_append.1 hb with hb | hb
      · exact hpre b (List.mem_append_left _ hb)
      · rcases List.mem_cons.1 hb with rfl | hb
        · exact Nat.add_pos_right _ hx'
        · exact hpost' b hb
    · rw [← List.cons_append] at hb
      rcases List.mem_append.1 hb with hb | hb
      · have hlt := hbefore b hb
        have hne : b.start ≠ lastStart arena (front ++ [y]) := by
          rw [← hycur]
          unfold Block.stop at hlt
          omega
        rw [hunitsSame _ hne]
        exact (hunits b (List.mem_append_left [y] hb)).2
      · rcases List.mem_cons.1 hb with rfl | hb
        · rw [show (Block.mk y.start (y.len + x'.len)).start = lastStart arena (front ++ [y]) from hycur]
          exact hunitsCur
        · rw [hunitsSame _ (hpostNe b hb).1]
          exact (hunitsPost b hb).2
    · rw [hstarts, ← List.cons_append]
      exact List.mem_append_left _ (lastStart_mem arena (front ++ [y]))
    · have hcov := hj.covers p
      rw [covers_cons] at hcov
      simp only [covers_append, covers_cons, covers_nil, or_false, mem_fuse htouch']
      rw [or_assoc, hcov]
      tauto
    · have htotal := hj.total
      simp only [total_append, total_cons, total_nil] at htotal ⊢
      omega
    · have hle := hleft y hy
      unfold Block.stop at hle
      exact (Nat.le_add_right _ _).trans hle
    · rw [hstop]
      exact hj.stop
  · -- The block stays on its own.
    have hgap : ∀ a ∈ (⟨arena, 1⟩ : Block) :: pre, a.stop < x'.start := by
      intro a ha
      rw [hj.start]
      refine Nat.lt_of_le_of_ne (hleft a ha) fun htouch => hjoin ?_
      obtain ⟨front, rfl⟩ := hfit.last_of_touch hfront hpre ha htouch
      rw [lastStart_concat, (hunits a ha).2]
      exact htouch
    have hnextCur : (slobReinsert s x.start (lastStart arena pre)).next (lastStart arena pre) =
        ((x' :: post').map Block.start).headD arena := by
      unfold slobReinsert slobJoinPrev
      rw [hs₁, if_neg hjoin, List.map_cons, List.headD_cons, hj.start]
      exact Function.update_self _ _ _
    have hnextBlock : (slobReinsert s x.start (lastStart arena pre)).next x.start =
        (post'.map Block.start).headD arena := by
      unfold slobReinsert slobJoinPrev
      rw [hs₁, if_neg hjoin, ← hj.next]
      exact Function.update_of_ne hyx.symm _ _
    have hunitsAll : ∀ z, (slobReinsert s x.start (lastStart arena pre)).units z = s₁.units z := by
      intro z
      unfold slobReinsert slobJoinPrev
      rw [hs₁, if_neg hjoin]
      rfl
    have hnew : Tail (slobReinsert s x.start (lastStart arena pre)).next ((x' :: post').map Block.start) arena := by
      refine path_iff_tail.2 ⟨?_, htail⟩
      rw [hj.start]
      exact hnextBlock
    have hpath' := hpath.splice hnodupFront hsame hnextCur hnew
    rw [← List.map_append] at hpath'
    refine ⟨pre ++ x' :: post', ⟨hpath', ?_, fun b hb => ?_, fun b hb => ?_, ?_⟩,
      ⟨fun p => ?_, ?_, x', by simp, hj.start.le, hj.stop⟩, hrest, hframe⟩
    · refine List.pairwise_append.2 ⟨hfront, hj.spaced, fun a ha c hc => ?_⟩
      rcases List.mem_cons.1 hc with rfl | hc
      · exact hgap a ha
      · exact hcross a ha c (hj.subset c hc)
    · rcases List.mem_append.1 hb with hb | hb
      · exact hpre b hb
      · rcases List.mem_cons.1 hb with rfl | hb
        · exact hx'
        · exact hpost' b hb
    · rw [hunitsAll]
      rw [← List.cons_append] at hb
      rcases List.mem_append.1 hb with hb | hb
      · exact (hunits b hb).2
      · rcases List.mem_cons.1 hb with rfl | hb
        · rw [hj.start]
          exact hj.units
        · exact (hunitsPost b hb).2
    · rw [List.map_append, ← List.cons_append]
      exact List.mem_append_left _ (lastStart_mem arena pre)
    · have hcov := hj.covers p
      rw [covers_append, hcov, covers_append, or_assoc]
    · have htotal := hj.total
      simp only [total_append] at htotal ⊢
      omega

theorem FreeRing.setUnits (h : FreeRing arena s bs) (hn : n ∉ arena :: bs.map Block.start) (len : Nat) :
    FreeRing arena (s.setUnits n len) bs := by
  refine ⟨h.path, h.spaced, h.pos, fun b hb => ?_, h.rover⟩
  have hne : b.start ≠ n := by
    rintro rfl
    exact hn (show b.start ∈ ((⟨arena, 1⟩ : Block) :: bs).map Block.start from List.mem_map_of_mem hb)
  calc (s.setUnits n len).units b.start = s.units b.start := Function.update_of_ne hne _ _
    _ = b.len := h.units b hb

/-- The first cell of a block that has no cell in common with the free blocks is not the start of one. -/
theorem FreeRing.start_not_mem (h : FreeRing arena s bs) (hx : 0 < x.len) (harena : arena + 1 < x.start)
    (hdis : ∀ b ∈ bs, x.Disjoint b) : x.start ∉ arena :: bs.map Block.start := by
  intro hmem
  rcases List.mem_cons.1 hmem with heq | hmem
  · omega
  · obtain ⟨b, hb, heq⟩ := List.mem_map.1 hmem
    refine hdis b hb x.start ⟨le_rfl, Nat.lt_add_of_pos_right hx⟩ ⟨heq.le, ?_⟩
    rw [← heq]
    exact Nat.lt_add_of_pos_right (h.pos b hb)

/-- `slob_free` of a block of `x.len` units adds the block to the free ones. -/
theorem slobFree_spec {size : Nat} (h : FreeRing arena s bs) (hpos : 0 < x.len) (harena : arena + 1 < x.start)
    (hdis : ∀ b ∈ bs, x.Disjoint b) (hsize : size ≠ 0 → slobUnits size = x.len)
    (hunits : size = 0 → s.units x.start = x.len) : ∃ s' bs',
      Returns (fun bound => slobFree bound s x.start size) s' ∧ FreeRing arena s' bs' ∧ Inserted bs x bs' ∧
      SameBig s s' ∧ ∀ a, a ≠ x.start → a ∉ arena :: bs.map Block.start → s'.units a = s.units a := by
  have hmem := h.start_not_mem hpos harena hdis
  have hne : x.start ≠ 0 := by omega
  obtain ⟨s₁, hs₁, hring, hx, hrest, hsame⟩ : ∃ s₁,
      s₁ = (if size ≠ 0 then s.setUnits x.start (slobUnits size) else s) ∧ FreeRing arena s₁ bs ∧
        s₁.units x.start = x.len ∧ SameBig s s₁ ∧ ∀ a, a ≠ x.start → s₁.units a = s.units a := by
    by_cases hzero : size = 0
    · refine ⟨s, ?_, h, hunits hzero, SameBig.refl s, fun _ _ => rfl⟩
      rw [if_neg (not_not.2 hzero)]
    · refine ⟨s.setUnits x.start (slobUnits size), (if_pos hzero).symm, h.setUnits hmem _, ?_, ⟨rfl, rfl, rfl⟩,
        fun a ha => Function.update_of_ne ha _ _⟩
      rw [← hsize hzero]
      exact Function.update_self _ _ _
  obtain ⟨pre, post, rfl, hpre, hpost⟩ :=
    Ordered.exists_split h.pos hpos (Spaced.ordered (List.pairwise_cons.1 h.spaced).2) hdis
  have hfit : Fits arena pre post x := ⟨hpos, harena, hpre, hpost⟩
  have hloop := slobFreeLoop_spec hring (by omega : arena < x.start)
    (fun a ha => by
      have hle := hpre a ha
      have hlen := h.pos a (List.mem_append_left _ ha)
      unfold Block.stop at hle
      omega)
    (fun c hc => by
      have hle := hpost c hc
      unfold Block.stop at hle
      omega)
  obtain ⟨bs', hring', hins, hrest', hframe⟩ := slobReinsert_spec hring hx hfit
  refine ⟨slobReinsert s₁ x.start (lastStart arena pre), bs', ⟨(pre ++ post).length + 1, fun bound hbound => ?_⟩,
    hring', hins, hrest.trans hrest', fun a hax ha => (hframe a hax ha).trans (hsame a hax)⟩
  simp only [slobFree, if_neg hne, ← hs₁, hloop bound (by omega), bind_done, pure_eq_done]

/-! ## slob_alloc -/

/-- What is left of a block when its first `n` units are taken. -/
def remainder (b : Block) (n : Nat) : List Block :=
  if b.len = n then [] else [⟨b.start + n, b.len - n⟩]

theorem slobTake_spec (h : FreeRing arena s (pre ++ b :: post)) (hn : 0 < n) (hle : n ≤ b.len) :
    FreeRing arena (slobTake s n (lastStart arena pre) b.start) (pre ++ (remainder b n ++ post)) ∧
      (slobTake s n (lastStart arena pre) b.start).units b.start = n ∧
      SameBig s (slobTake s n (lastStart arena pre) b.start) ∧
      ∀ a, a ≠ b.start → a ≠ b.start + n →
        (slobTake s n (lastStart arena pre) b.start).units a = s.units a := by
  have hspaced := h.spaced
  rw [← List.cons_append] at hspaced
  obtain ⟨hfront, hback, hcross⟩ := List.pairwise_append.1 hspaced
  obtain ⟨hbpost, hpost⟩ := List.pairwise_cons.1 hback
  have hbefore : ∀ a ∈ (⟨arena, 1⟩ : Block) :: pre, a.start < b.start ∧ a.stop < b.start := by
    intro a ha
    have hlt := hcross a ha b List.mem_cons_self
    refine ⟨?_, hlt⟩
    unfold Block.stop at hlt
    omega
  have hbehind : ∀ c ∈ post, b.start + b.len < c.start := hbpost
  have hbu : s.units b.start = b.len := h.units b (by simp)
  have hpath := h.path
  have hnodup := h.nodup
  rw [List.map_append] at hpath hnodup
  rw [← List.cons_append] at hnodup
  have hnodupFront := hnodup.of_append_left
  have hbnext : s.next b.start = (post.map Block.start).headD arena ∧ Tail s.next (post.map Block.start) arena :=
    path_iff_tail.1 (path_append_cons.1 hpath).2
  obtain ⟨y, hy, hycur⟩ : ∃ y ∈ (⟨arena, 1⟩ : Block) :: pre, y.start = lastStart arena pre :=
    List.mem_map.1 (show lastStart arena pre ∈ ((⟨arena, 1⟩ : Block) :: pre).map Block.start from
      lastStart_mem arena pre)
  have hprev : lastStart arena pre < b.start := hycur ▸ (hbefore y hy).1
  by_cases hexact : b.len = n
  · -- The block is taken as a whole.
    have htake : slobTake s n (lastStart arena pre) b.start =
        { s.setNext (lastStart arena pre) (s.next b.start) with slobfree := lastStart arena pre } := by
      rw [slobTake, if_pos (hbu.trans hexact)]
    rw [htake, remainder, if_pos hexact, List.nil_append]
    refine ⟨⟨?_, ?_, fun c hc => ?_, fun c hc => ?_, ?_⟩, hbu.trans hexact, ⟨rfl, rfl, rfl⟩, fun _ _ _ => rfl⟩
    · rw [List.map_append]
      refine hpath.splice hnodupFront (fun z _ hz => Function.update_of_ne hz _ _) ?_ (hbnext.2.congr fun z hz => ?_)
      · rw [← hbnext.1]
        exact Function.update_self _ _ _
      · obtain ⟨c, hc, rfl⟩ := List.mem_map.1 hz
        have := hbehind c hc
        exact Function.update_of_ne (by omega) _ _
    · exact List.pairwise_append.2 ⟨hfront, hpost, fun a ha c hc => hcross a ha c (List.mem_cons_of_mem _ hc)⟩
    · rcases List.mem_append.1 hc with hc | hc
      · exact h.pos c (List.mem_append_left _ hc)
      · exact h.pos c (List.mem_append_right _ (List.mem_cons_of_mem _ hc))
    · rw [← List.cons_append] at hc
      rcases List.mem_append.1 hc with hc | hc
      · exact h.units c (by rw [← List.cons_append]; exact List.mem_append_left _ hc)
      · exact h.units c (by rw [← List.cons_append]; exact List.mem_append_right _ (List.mem_cons_of_mem _ hc))
    · rw [List.map_append, ← List.cons_append]
      exact List.mem_append_left _ (lastStart_mem arena pre)
  · -- The rest of the block takes its place in the list.
    have hne : lastStart arena pre ≠ b.start := Nat.ne_of_lt hprev
    have hrest : b.start + n ≠ b.start := by omega
    have htake : slobTake s n (lastStart arena pre) b.start =
        { s with
          next := Function.update (Function.update s.next (lastStart arena pre) (b.start + n)) (b.start + n)
            (s.next b.start)
          units := Function.update (Function.update s.units (b.start + n) (b.len - n)) b.start n
          slobfree := lastStart arena pre } := by
      rw [slobTake, if_neg (hbu ▸ hexact)]
      simp only [Heap.setNext, Heap.setUnits, Function.update_self, hbu, Function.update_of_ne hne.symm]
    rw [htake, remainder, if_neg hexact]
    refine ⟨⟨?_, ?_, fun c hc => ?_, fun c hc => ?_, ?_⟩, Function.update_self _ _ _, ⟨rfl, rfl, rfl⟩,
      fun a ha ha' => (Function.update_of_ne ha _ _).trans (Function.update_of_ne ha' _ _)⟩
    · rw [List.map_append]
      refine hpath.splice hnodupFront (fun z hz hzlast => ?_) ?_ (path_iff_tail.2 ⟨?_, hbnext.2.congr fun z hz => ?_⟩)
      · obtain ⟨a, ha, rfl⟩ : ∃ a ∈ (⟨arena, 1⟩ : Block) :: pre, a.start = z := List.mem_map.1 hz
        have := (hbefore a ha).1
        exact (Function.update_of_ne (by omega) _ _).trans (Function.update_of_ne hzlast _ _)
      · exact (Function.update_of_ne (by show lastStart arena pre ≠ b.start + n; omega) _ _).trans
          (Function.update_self _ _ _)
      · exact (Function.update_self _ _ _).trans hbnext.1
      · obtain ⟨c, hc, rfl⟩ := List.mem_map.1 hz
        have := hbehind c hc
        exact (Function.update_of_ne (by omega) _ _).trans (Function.update_of_ne (by omega) _ _)
    · refine List.pairwise_append.2 ⟨hfront, List.pairwise_cons.2 ⟨fun c hc => ?_, hpost⟩, fun a ha c hc => ?_⟩
      · have := hbehind c hc
        show b.start + n + (b.len - n) < c.start
        omega
      · rcases List.mem_cons.1 hc with rfl | hc
        · exact (hbefore a ha).2.trans_le (Nat.le_add_right _ _)
        · exact hcross a ha c (List.mem_cons_of_mem _ hc)
    · rcases List.mem_append.1 hc with hc | hc
      · exact h.pos c (List.mem_append_left _ hc)
      · rcases List.mem_cons.1 hc with rfl | hc
        · exact Nat.sub_pos_of_lt (Nat.lt_of_le_of_ne hle (Ne.symm hexact))
        · exact h.pos c (List.mem_append_right _ (List.mem_cons_of_mem _ hc))
    · rw [← List.cons_append] at hc
      rcases List.mem_append.1 hc with hc | hc
      · have := (hbefore c hc).1
        refine (Function.update_of_ne (by omega) _ _).trans ((Function.update_of_ne (by omega) _ _).trans ?_)
        exact h.units c (by rw [← List.cons_append]; exact List.mem_append_left _ hc)
      · rcases List.mem_cons.1 hc with rfl | hc
        · exact (Function.update_of_ne hrest _ _).trans (Function.update_self _ _ _)
        · have := hbehind c hc
          refine (Function.update_of_ne (by omega) _ _).trans ((Function.update_of_ne (by omega) _ _).trans ?_)
          exact h.units c (by rw [← List.cons_append]; exact List.mem_append_right _ (List.mem_cons_of_mem _ hc))
    · rw [List.map_append, ← List.cons_append]
      exact List.mem_append_left _ (lastStart_mem arena pre)

variable {size prev : Nat} {zs : List Nat}

/-- The loop goes on to the first block that is large enough. -/
theorem slobAllocLoop_fits (hpath : Path s.next prev zs s.slobfree) (hrover : s.slobfree ∉ zs)
    (hfit : ∃ c ∈ zs ++ [s.slobfree], slobUnits size ≤ s.units c) : ∃ prev' c,
      prev' ∈ prev :: zs ∧ s.next prev' = c ∧ c ∈ zs ++ [s.slobfree] ∧ slobUnits size ≤ s.units c ∧
      ∀ bound, zs.length < bound → ∀ grants, slobAllocLoop size bound grants s prev (s.next prev) =
        done (some c, slobTake s (slobUnits size) prev' c) := by
  have hhere : ∀ {prev zs}, Path s.next prev zs s.slobfree → slobUnits size ≤ s.units (s.next prev) →
      ∀ bound, zs.length < bound → ∀ grants, slobAllocLoop size bound grants s prev (s.next prev) =
        done (some (s.next prev), slobTake s (slobUnits size) prev (s.next prev)) := by
    intro prev zs _ hle bound hbound grants
    obtain ⟨bound, rfl⟩ := Nat.exists_eq_succ_of_ne_zero (Nat.ne_of_gt (Nat.zero_lt_of_lt hbound))
    exact if_pos hle
  induction zs generalizing prev with
  | nil =>
      obtain ⟨c, hc, hle⟩ := hfit
      obtain rfl := List.mem_singleton.1 hc
      have hnext : s.next prev = s.slobfree := hpath
      exact ⟨prev, s.next prev, List.mem_cons_self, rfl, hnext ▸ List.mem_cons_self, hnext ▸ hle,
        hhere hpath (hnext ▸ hle)⟩
  | cons z zs ih =>
      have hnext : s.next prev = z := hpath.1
      by_cases hz : slobUnits size ≤ s.units z
      · refine ⟨prev, s.next prev, List.mem_cons_self, rfl, ?_, hnext ▸ hz, hhere hpath (hnext ▸ hz)⟩
        rw [hnext]
        exact List.mem_cons_self
      · have hzr : z ≠ s.slobfree := fun heq => hrover (heq ▸ List.mem_cons_self)
        obtain ⟨c, hc, hle⟩ := hfit
        have hc : c ∈ zs ++ [s.slobfree] := by
          rcases List.mem_cons.1 hc with rfl | hc
          · exact absurd hle hz
          · exact hc
        obtain ⟨prev', c, hprev', hnext', hc, hle, hrun⟩ :=
          ih hpath.2 (fun hmem => hrover (List.mem_cons_of_mem _ hmem)) ⟨c, hc, hle⟩
        refine ⟨prev', c, List.mem_cons_of_mem _ hprev', hnext', List.mem_cons_of_mem _ hc, hle,
          fun bound hbound grants => ?_⟩
        obtain ⟨bound, rfl⟩ := Nat.exists_eq_succ_of_ne_zero (Nat.ne_of_gt (Nat.zero_lt_of_lt hbound))
        rw [hnext, slobAllocLoop, if_neg hz, if_neg hzr]
        exact hrun bound (Nat.lt_of_succ_lt_succ hbound) grants

/-- Without such a block the loop comes back to `slobfree`. -/
theorem slobAllocLoop_round (hpath : Path s.next prev zs s.slobfree) (hrover : s.slobfree ∉ zs)
    (hsmall : ∀ c ∈ zs ++ [s.slobfree], s.units c < slobUnits size) : ∃ prev', ∀ bound grants,
      slobAllocLoop size (bound + 1 + zs.length) grants s prev (s.next prev) =
        slobAllocLoop size (bound + 1) grants s prev' s.slobfree := by
  induction zs generalizing prev with
  | nil =>
      have hnext : s.next prev = s.slobfree := hpath
      exact ⟨prev, fun bound grants => by rw [hnext, List.length_nil, Nat.add_zero]⟩
  | cons z zs ih =>
      have hnext : s.next prev = z := hpath.1
      have hz := hsmall z List.mem_cons_self
      have hzr : z ≠ s.slobfree := fun heq => hrover (heq ▸ List.mem_cons_self)
      obtain ⟨prev', hrun⟩ := ih hpath.2 (fun hmem => hrover (List.mem_cons_of_mem _ hmem))
        fun c hc => hsmall c (List.mem_cons_of_mem _ hc)
      refine ⟨prev', fun bound grants => ?_⟩
      rw [hnext, List.length_cons, ← Nat.add_assoc, slobAllocLoop, if_neg (Nat.not_le.2 hz), if_neg hzr]
      exact hrun bound grants

/-- From `slobfree` the loop takes a block that is large enough, if there is one. -/
theorem slobAllocLoop_found (h : FreeRing arena s bs) (hn : 2 ≤ slobUnits size)
    (hfit : ∃ b ∈ bs, slobUnits size ≤ b.len) : ∃ pre b post, bs = pre ++ b :: post ∧ slobUnits size ≤ b.len ∧
      ∀ bound, bs.length < bound → ∀ grants,
        slobAllocLoop size bound grants s s.slobfree (s.next s.slobfree) =
          done (some b.start, slobTake s (slobUnits size) (lastStart arena pre) b.start) := by
  obtain ⟨zs, hpath, hperm⟩ := h.path.enter h.rover
  have hmem : ∀ c, c ∈ zs ++ [s.slobfree] ↔ c ∈ arena :: bs.map Block.start := fun c =>
    ((List.perm_append_singleton s.slobfree zs).trans hperm).mem_iff
  have hnodup := hperm.nodup_iff.2 h.nodup
  have hlen : zs.length = bs.length := by
    have := hperm.length_eq
    simpa using this
  obtain ⟨b, hb, hle⟩ := hfit
  obtain ⟨prev', c, hprev', hnext, hc, hle, hrun⟩ := slobAllocLoop_fits hpath (List.nodup_cons.1 hnodup).1
    ⟨b.start, (hmem _).2 (List.mem_cons_of_mem _ (List.mem_map_of_mem hb)), by
      rw [h.units b (List.mem_cons_of_mem _ hb)]
      exact hle⟩
  -- It is not `arena`, which has one unit.
  have hc : c ∈ bs.map Block.start := by
    rcases List.mem_cons.1 ((hmem c).1 hc) with rfl | hc
    · have harena : s.units c = 1 := h.units ⟨c, 1⟩ List.mem_cons_self
      omega
    · exact hc
  obtain ⟨b, hb, rfl⟩ := List.mem_map.1 hc
  obtain ⟨pre, post, rfl⟩ := List.append_of_mem hb
  have hlast : s.next (lastStart arena pre) = b.start := by
    have hpath' := h.path
    rw [List.map_append] at hpath'
    exact (path_append_cons.1 hpath').1.last
  have hlastMem : lastStart arena pre ∈ arena :: (pre ++ b :: post).map Block.start := by
    rw [List.map_append, ← List.cons_append]
    exact List.mem_append_left _ (lastStart_mem arena pre)
  have hprev : prev' = lastStart arena pre :=
    h.path.next_inj h.nodup (hperm.mem_iff.1 hprev') hlastMem (hnext.trans hlast.symm)
  subst hprev
  rw [h.units b (List.mem_cons_of_mem _ hb)] at hle
  exact ⟨pre, b, post, rfl, hle, fun bound hbound grants => hrun bound (by omega) grants⟩

/-- A page that the page allocator has given. -/
def pageBlock (page : Nat) : Block := ⟨page * pageUnits, pageUnits⟩

/-- The blocks of the pages that have been taken. -/
def grown (page : Option Nat) : List Block := page.toList.map pageBlock

/-- `slob_alloc` has taken a block of `n` units at `m`, after it has taken a page. -/
structure Allocated (arena : Nat) (s : Heap) (bs : List Block) (page : Option Nat) (n m : Nat) (s' : Heap)
    (bs' : List Block) : Prop where
  ring : FreeRing arena s' bs'
  start : arena + 1 < m
  units : s'.units m = n
  covers : ∀ p, (Covers bs' p ∨ (⟨m, n⟩ : Block).Mem p) ↔ Covers (grown page ++ bs) p
  disjoint : ∀ c ∈ bs', (⟨m, n⟩ : Block).Disjoint c
  total : total bs' + n = total (grown page ++ bs)
  big : s'.big = s.big
  bigblocks : s'.bigblocks = s.bigblocks
  nrFree : s'.nrFree = s.nrFree - page.toList.length
  same : ∀ a, a ≠ arena → ¬ Covers (grown page ++ bs) a → s'.units a = s.units a

/-- The block at the front of a free block is taken. -/
theorem allocated_take (h : FreeRing arena s (pre ++ b :: post)) (hn : 0 < n) (hle : n ≤ b.len) :
    ∃ bs', Allocated arena s (pre ++ b :: post) none n b.start
      (slobTake s n (lastStart arena pre) b.start) bs' := by
  obtain ⟨hring, hunits, hsame, hframe⟩ := slobTake_spec h hn hle
  have hrem : ∀ p, Covers (remainder b n) p ↔ b.start + n ≤ p ∧ p < b.stop := by
    intro p
    unfold remainder
    split
    next hexact =>
      simp only [covers_nil, false_iff]
      unfold Block.stop
      omega
    next hexact =>
      simp only [covers_cons, covers_nil, or_false, Block.Mem, Block.stop]
      omega
  have hspaced := (List.pairwise_cons.1 h.spaced).2
  have hord := Spaced.ordered hspaced
  have hall : ∀ p, (Covers (pre ++ (remainder b n ++ post)) p ∨ (⟨b.start, n⟩ : Block).Mem p) ↔
      Covers (pre ++ b :: post) p := by
    intro p
    simp only [covers_append, covers_cons, hrem, Block.Mem, Block.stop]
    have hsplit : (b.start + n ≤ p ∧ p < b.start + b.len) ∨ (b.start ≤ p ∧ p < b.start + n) ↔
        b.start ≤ p ∧ p < b.start + b.len := by omega
    tauto
  refine ⟨pre ++ (remainder b n ++ post), hring, h.arena_lt (by simp), hunits, hall, fun c hc p hp hcp => ?_,
    ?_, hsame.big, hsame.bigblocks, hsame.nrFree.trans (sub_zero _).symm, fun a harena ha => ?_⟩
  · -- What is left of the block begins behind it, and the other blocks are apart from it.
    have hp' : b.Mem p := by
      unfold Block.Mem Block.stop at hp ⊢
      dsimp only at hp
      omega
    have hother := Ordered.not_covers hord hp'
    rw [covers_append] at hother
    rcases List.mem_append.1 hc with hc | hc
    · exact hother (Or.inl ⟨c, hc, hcp⟩)
    · rcases List.mem_append.1 hc with hc | hc
      · have hlow := ((hrem p).1 ⟨c, hc, hcp⟩).1
        have hhigh : p < b.start + n := hp.2
        omega
      · exact hother (Or.inr ⟨c, hc, hcp⟩)
  · have hlen : total (remainder b n) + n = b.len := by
      unfold remainder
      split
      next hexact => rw [total_nil, Nat.zero_add, hexact]
      next =>
        rw [total_cons, total_nil, Nat.add_zero]
        exact Nat.sub_add_cancel hle
    simp only [grown, Option.toList_none, List.map_nil, List.nil_append, total_append, total_cons]
    omega
  · have hnot : ¬ b.Mem a := fun hmem =>
      ha ⟨b, List.mem_append_right pre List.mem_cons_self, hmem⟩
    unfold Block.Mem Block.stop at hnot
    by_cases hend : a = b.start + n
    · -- The remainder begins where nothing was covered only if it is empty.
      have hexact : b.len = n := by omega
      rw [slobTake, if_pos (by rw [h.units b (by simp), hexact])]
      rfl
    · exact hframe a (by omega) hend

/-- After a page has been put to the free blocks, the block that is taken is one of those and the page. -/
theorem Allocated.of_page {s₂ : Heap} {bs₂ : List Block} {page m : Nat} (h : FreeRing arena s bs)
    (hins : Inserted bs (pageBlock page) bs₂) (hnr : s₂.nrFree = s.nrFree - 1) (hbig : s₂.big = s.big)
    (hblocks : s₂.bigblocks = s.bigblocks)
    (hsame : ∀ a, a ≠ (pageBlock page).start → a ∉ arena :: bs.map Block.start → s₂.units a = s.units a)
    (ha : Allocated arena s₂ bs₂ none n m s' bs') : Allocated arena s bs (some page) n m s' bs' := by
  have hcovers : ∀ p, Covers (grown none ++ bs₂) p ↔ Covers (grown (some page) ++ bs) p := by
    intro p
    show Covers bs₂ p ↔ Covers (pageBlock page :: bs) p
    rw [hins.covers, covers_cons]
    exact or_comm
  refine ⟨ha.ring, ha.start, ha.units, fun p => (ha.covers p).trans (hcovers p), ha.disjoint, ?_,
    ha.big.trans hbig, ha.bigblocks.trans hblocks, ?_, fun a harena hnot => ?_⟩
  · have htotal := ha.total
    have hpage := hins.total
    simp only [grown, Option.toList_none, Option.toList_some, List.map_nil, List.map_singleton, List.nil_append,
      List.singleton_append, total_cons] at htotal ⊢
    omega
  · rw [ha.nrFree, hnr]
    simp
  · rw [ha.same a harena fun hc => hnot ((hcovers a).1 hc)]
    refine hsame a (fun heq => hnot ?_) fun hmem => ?_
    · refine ⟨pageBlock page, List.mem_cons_self, ?_⟩
      rw [heq]
      exact ⟨le_rfl, Nat.lt_add_of_pos_right (by decide : 0 < pageUnits)⟩
    · rcases List.mem_cons.1 hmem with heq | hmem
      · exact harena heq
      · obtain ⟨b, hb, rfl⟩ := List.mem_map.1 hmem
        refine hnot ⟨b, List.mem_cons_of_mem _ hb, le_rfl, Nat.lt_add_of_pos_right (h.pos b hb)⟩

/-- The page that is given to the allocator has its place among the free blocks. -/
def PageFree (arena : Nat) (bs : List Block) (page : Nat) : Prop :=
  arena + 1 < (pageBlock page).start ∧ ∀ b ∈ bs, (pageBlock page).Disjoint b

/-- `slob_alloc` fails only if no free block is large enough and there is no page. -/
theorem slobAlloc_spec {grants : Nat → Option Nat} (h : FreeRing arena s bs) (hn : 2 ≤ slobUnits size)
    (hsize : size + slobUnit < pgSize) (hpage : ∀ page, grants 0 = some page → PageFree arena bs page) :
    ((∀ b ∈ bs, b.len < slobUnits size) ∧ grants 0 = none ∧
        Returns (fun bound => slobAlloc bound grants s size) (none, s)) ∨
      ∃ page m s' bs', (page = none ∨ page = grants 0) ∧
        ((∀ b ∈ bs, b.len < slobUnits size) → page = grants 0) ∧
        Returns (fun bound => slobAlloc bound grants s size) (some m, s') ∧
        Allocated arena s bs page (slobUnits size) m s' bs' := by
  have hunits : slobUnits size ≤ pageUnits := by
    have hpg : pgSize = 4096 := rfl
    unfold slobUnits pageUnits slobUnit at *
    omega
  by_cases hfit : ∃ b ∈ bs, slobUnits size ≤ b.len
  · obtain ⟨pre, b, post, rfl, hle, hrun⟩ := slobAllocLoop_found h hn hfit
    obtain ⟨bs', halloc⟩ := allocated_take h (by omega) hle
    refine Or.inr ⟨none, _, _, bs', Or.inl rfl, fun hsmall => ?_, ⟨(pre ++ b :: post).length + 1,
      fun bound hbound => ?_⟩, halloc⟩
    · have := hsmall b (by simp)
      omega
    · simp only [slobAlloc, Outcome.assert, if_pos hsize, bind_done]
      exact hrun bound (by omega) grants
  · -- The loop comes back to `slobfree`, and asks for a page.
    have hsmall : ∀ b ∈ bs, b.len < slobUnits size := fun b hb => Nat.not_le.1 fun hle => hfit ⟨b, hb, hle⟩
    obtain ⟨zs, hpath, hperm⟩ := h.path.enter h.rover
    have hnodup := hperm.nodup_iff.2 h.nodup
    have hnone : ∀ c ∈ zs ++ [s.slobfree], s.units c < slobUnits size := by
      intro c hc
      have hc := ((List.perm_append_singleton s.slobfree zs).trans hperm).mem_iff.1 hc
      obtain ⟨b, hb, rfl⟩ : ∃ b ∈ (⟨arena, 1⟩ : Block) :: bs, b.start = c := List.mem_map.1 hc
      rw [h.units b hb]
      rcases List.mem_cons.1 hb with rfl | hb
      · exact hn
      · exact hsmall b hb
    obtain ⟨prev', hround⟩ := slobAllocLoop_round hpath (List.nodup_cons.1 hnodup).1 hnone
    have hrover : ¬ slobUnits size ≤ s.units s.slobfree :=
      Nat.not_le.2 (hnone _ (List.mem_append_right _ List.mem_cons_self))
    have hne : size ≠ pgSize := by omega
    have hstart : ∀ bound, slobAlloc (bound + 1 + zs.length) grants s size =
        slobAllocLoop size (bound + 1) grants s prev' s.slobfree := by
      intro bound
      simp only [slobAlloc, Outcome.assert, if_pos hsize, bind_done]
      exact hround bound grants
    cases hgrant : grants 0 with
    | none =>
        refine Or.inl ⟨hsmall, rfl, ⟨zs.length + 1, fun bound hbound => ?_⟩⟩
        obtain ⟨k, rfl⟩ := Nat.exists_eq_add_of_le hbound
        have hbound : zs.length + 1 + k = k + 1 + zs.length := by omega
        rw [hbound]
        refine (hstart k).trans ?_
        simp only [slobAllocLoop, ge_iff_le, if_neg hrover, if_true, if_neg hne, hgrant, slobGetFreePages,
          pure_eq_done]
    | some page =>
        obtain ⟨harena, hdis⟩ := hpage page hgrant
        have hring : FreeRing arena { s with nrFree := s.nrFree - 2 ^ 0 } bs :=
          ⟨h.path, h.spaced, h.pos, h.units, h.rover⟩
        obtain ⟨s₂, bs₂, ⟨limit, hfree⟩, hring₂, hins, hrest, hframe⟩ := @slobFree_spec arena _ bs (pageBlock page)
          pgSize hring (by decide : 0 < pageUnits) harena hdis (fun _ => (by decide : slobUnits pgSize = pageUnits))
          fun hzero => absurd hzero (by decide)
        obtain ⟨b₀, hb₀, hlow, hhigh⟩ := hins.inside
        have hlen : slobUnits size ≤ b₀.len := by
          have hpl : (pageBlock page).len = pageUnits := rfl
          unfold Block.stop at hhigh
          omega
        obtain ⟨pre, b, post, rfl, hle, hrun⟩ := slobAllocLoop_found hring₂ hn ⟨b₀, hb₀, hlen⟩
        obtain ⟨bs', halloc⟩ := allocated_take hring₂ (by omega) hle
        refine Or.inr ⟨some page, _, _, bs', Or.inr rfl, fun _ => rfl,
          ⟨zs.length + 1 + (max limit ((pre ++ b :: post).length + 1)), fun bound hbound => ?_⟩,
          Allocated.of_page h hins hrest.nrFree hrest.big hrest.bigblocks hframe halloc⟩
        obtain ⟨k, rfl⟩ := Nat.exists_eq_add_of_le (show zs.length + 1 ≤ bound by omega)
        have hsum : zs.length + 1 + k = k + 1 + zs.length := by omega
        have hfree : slobFree k { s with nrFree := s.nrFree - 2 ^ 0 } (page * pageUnits) pgSize = done s₂ :=
          hfree k (by omega)
        rw [hsum]
        refine (hstart k).trans ?_
        simp only [slobAllocLoop, ge_iff_le, if_neg hrover, if_true, if_neg hne, hgrant, slobGetFreePages]
        rw [hfree, bind_done]
        exact hrun k (by omega) _

end Slob
end TriOS
