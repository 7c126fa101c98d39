import TriOS.Mm.FirstFit

/-!
# Runs of the first-fit page manager

The manager together with the ranges it has handed out. `WellFormed` is the invariant of the runs:
the free list is an ordered list of blocks, and the ranges in use are apart from it and from each
other.
-/

namespace TriOS

open CircularList Blocks Transition Outcome

/-- The manager, and the ranges that were allocated and not freed since. -/
structure PmmState where
  mgr : Pmm
  live : List Block

/-- The calls of the manager. -/
inductive PmmOp where
  | initMemmap (base n : Nat)
  | alloc (n : Nat)
  | free (base n : Nat)
  deriving DecidableEq, Repr

/-- The ranges in use after an allocation of `n` pages that returned `r`. -/
def grant (live : List Block) (n : Nat) : Option Nat → List Block
  | none => live
  | some p => ⟨p, n⟩ :: live

/-- One call of the manager. -/
def callPmm (fuel : Nat) (s : PmmState) : PmmOp → Outcome PmmState
  | PmmOp.initMemmap base n => do
      let mgr ← defaultInitMemmap fuel s.mgr base n
      pure { mgr := mgr, live := s.live }
  | PmmOp.alloc n => do
      let (page, mgr) ← defaultAllocPages fuel s.mgr n
      pure { mgr := mgr, live := grant s.live n page }
  | PmmOp.free base n => do
      let mgr ← defaultFreePages fuel s.mgr base n
      pure { mgr := mgr, live := s.live.erase ⟨base, n⟩ }

/-- What the clients may ask for: only ranges in use are freed. -/
def Allowed (s : PmmState) : PmmOp → Prop
  | PmmOp.initMemmap _ _ => True
  | PmmOp.alloc _ => True
  | PmmOp.free base n => ⟨base, n⟩ ∈ s.live

/-- One allowed call that returns. -/
def PmmStep (s : PmmState) (op : PmmOp) (t : PmmState) : Prop :=
  Allowed s op ∧ Returns (fun fuel => callPmm fuel s op) t

/-- The state after `default_init`. -/
def pmmStart (s : Pmm) : PmmState :=
  ⟨defaultInit s, []⟩

/-- `base` goes before the last block of the free list, or the list is empty. -/
def BelowTail (s : Pmm) (base : Nat) : Prop :=
  match listPrev s.freeList none with
  | none => True
  | some last => base < last

/-- The calls that do not link a block in at the end of a list. -/
def LinksBelowTail (s : PmmState) : PmmOp → Prop
  | PmmOp.initMemmap base _ => BelowTail s.mgr base
  | PmmOp.alloc _ => True
  | PmmOp.free base _ => BelowTail s.mgr base

/-- The calls of `default_init_memmap` whose range touches no block of the free list. -/
def InitApart (s : PmmState) : PmmOp → Prop
  | PmmOp.initMemmap base n =>
      ∀ bs, FreeList s.mgr bs → ∀ b ∈ bs, b.stop ≠ base ∧ base + n ≠ b.start
  | PmmOp.alloc _ => True
  | PmmOp.free _ _ => True

/-- The invariant of the manager and its clients. -/
structure WellFormed (s : PmmState) (bs : List Block) : Prop where
  free : FreeList s.mgr bs
  livePos : ∀ x ∈ s.live, 0 < x.len
  liveDisjoint : s.live.Pairwise Block.Disjoint
  liveApart : ∀ x ∈ s.live, ∀ b ∈ bs, x.Disjoint b
  liveFlags : ∀ x ∈ s.live, ∀ p, x.Mem p →
    (s.mgr.page p).reserved = false ∧ (s.mgr.page p).propertyFlag = false

variable {s s' : Pmm} {bs pre post : List Block} {b : Block} {base n : Nat}

/-! ## The three calls on an ordered list of blocks -/

/-- The place of a range without free pages, below the last block: it is linked in there. -/
theorem FreeList.place (h : FreeList s bs) (hbelow : BelowTail s base) (hn : 0 < n)
    (hdis : ∀ b ∈ bs, Block.Disjoint ⟨base, n⟩ b) :
    ∃ pre post m', bs = pre ++ post ∧ (∀ a ∈ pre, a.stop ≤ base) ∧
      (∀ b ∈ post, base + n ≤ b.start) ∧
      (∀ fuel, bs.length < fuel → insertByAddress fuel s.freeList base = done m') ∧
      Ring m' none (pre.map node ++ some base :: post.map node) := by
  rcases h.ordered.exists_split h.pos (x := ⟨base, n⟩) hn hdis with ⟨pre, post, rfl, hpre, hpost⟩
  have hbefore : ∀ a ∈ pre, a.start < base := by
    intro a ha
    have h1 : a.start + a.len ≤ base := hpre a ha
    have h2 := h.pos a (by simp [ha])
    omega
  have hafter : ∀ b ∈ post, base < b.start := by
    intro b hb
    have h1 : base + n ≤ b.start := hpost b hb
    omega
  have hfresh : some base ∉ (pre ++ post).map node := by
    intro hc
    rcases List.mem_map.1 hc with ⟨c, hc, hcn⟩
    have hcb : c.start = base := Option.some.inj hcn
    rcases List.mem_append.1 hc with hc | hc
    · exact absurd hcb (hbefore c hc).ne
    · exact absurd hcb (hafter c hc).ne'
  -- The last block is above `base`, so it is not among the blocks before it.
  have hplace : pre = [] ∨ post ≠ [] := by
    by_contra hc
    simp only [not_or, not_not] at hc
    rcases hc with ⟨hpn, rfl⟩
    rcases List.eq_nil_or_concat pre with rfl | ⟨us, u, rfl⟩
    · exact hpn rfl
    · have hlast : listPrev s.freeList none = some u.start := by
        have := h.ring.prev_head
        unfold listPrev
        rw [this]
        simp [node]
      unfold BelowTail at hbelow
      rw [hlast] at hbelow
      have := hbefore u (by simp)
      exact absurd hbelow (by simpa using this.le)
  rcases insertByAddress_eq h.ring (fun a ha => (hbefore a ha).le.not_gt) hafter hplace hfresh
    with ⟨m, hm, hring⟩
  refine ⟨pre, post, m, rfl, hpre, hpost, fun fuel hfuel => hm fuel ?_, hring⟩
  have : (pre ++ post).length = pre.length + post.length := List.length_append
  omega

/-- A range without free pages is linked in below the last block. -/
theorem FreeList.link {page : Nat → Page} {m' : Links (Option Nat)} {fuel : Nat}
    (h : FreeList s bs) (hbelow : BelowTail s base) (hn : 0 < n)
    (hdis : ∀ b ∈ bs, Block.Disjoint ⟨base, n⟩ b) (hfuel : bs.length < fuel)
    (hins : insertByAddress fuel s.freeList base = done m')
    (hout : ∀ p, ¬ Block.Mem ⟨base, n⟩ p → page p = s.page p)
    (hprop : (page base).property = n)
    (hin : ∀ p, Block.Mem ⟨base, n⟩ p → (page p).reserved = false ∧
      ((page p).propertyFlag = true ↔ p = base)) :
    ∃ pre post, bs = pre ++ post ∧
      FreeList ⟨page, m', s.nrFree + n⟩ (pre ++ ⟨base, n⟩ :: post) := by
  rcases h.place hbelow hn hdis with ⟨pre, post, m, rfl, hpre, hpost, hm, hring⟩
  rw [hm fuel hfuel] at hins
  have hmm : m = m' := done.inj hins
  subst hmm
  exact ⟨pre, post, rfl, h.insert (x := ⟨base, n⟩) hn hpre hpost hring hout hprop hin⟩

theorem defaultInitMemmap_spec (h : FreeList s bs) (hbelow : BelowTail s base)
    (hret : Returns (fun fuel => defaultInitMemmap fuel s base n) s') :
    0 < n ∧ (∀ p, Block.Mem ⟨base, n⟩ p → (s.page p).reserved = true) ∧
      (∀ p, ¬ Block.Mem ⟨base, n⟩ p → s'.page p = s.page p) ∧
      ∃ pre post, bs = pre ++ post ∧ FreeList s' (pre ++ ⟨base, n⟩ :: post) := by
  rcases hret.exists_eq (bs.length + 1) with ⟨fuel, hfuel, hrun⟩
  simp only [defaultInitMemmap, bind_eq_done, assert_eq_done, resetPages_eq_done] at hrun
  rcases hrun with ⟨_, hn, page, ⟨hres, hpage⟩, m', hins, hs'⟩
  have hs' : s' = ⟨Function.update page base { page base with property := n, propertyFlag := true },
      m', s.nrFree + n⟩ := (done.inj hs').symm
  have hres' : ∀ p, Block.Mem ⟨base, n⟩ p → (s.page p).reserved = true := fun p hp =>
    hres p hp.1 hp.2
  have hbase : Block.Mem ⟨base, n⟩ base := ⟨le_rfl, Nat.lt_add_of_pos_right hn⟩
  have hout : ∀ p, ¬ Block.Mem ⟨base, n⟩ p → s'.page p = s.page p := by
    intro p hp
    have hpb : p ≠ base := fun hc => hp (hc ▸ hbase)
    have hp' : ¬ (base ≤ p ∧ p < base + n) := hp
    simp [hs', hpb, hpage, resetTo, hp']
  refine ⟨hn, hres', hout, ?_⟩
  have hdis : ∀ b ∈ bs, Block.Disjoint ⟨base, n⟩ b := by
    intro b hb p hp hbp
    have h1 := hres' p hp
    rw [h.usable p ⟨b, hb, hbp⟩] at h1
    cases h1
  have hlink := @FreeList.link s bs base n s'.page m' fuel h hbelow hn hdis hfuel hins hout
    (by simp [hs'])
    (by
      intro p hp
      have hp' : base ≤ p ∧ p < base + n := hp
      by_cases hpb : p = base
      · simp [hs', hpb, hpage, resetTo, hn]
      · simp [hs', hpb, hpage, resetTo, hp'])
  simpa [hs'] using hlink

/-- A spaced list stays spaced when one of its blocks is replaced and others are absorbed. -/
theorem spaced_replace {pre' post' : List Block} {y : Block} (h : Spaced (pre ++ post))
    (hpre : pre'.Sublist pre) (hpost : post'.Sublist post) (hleft : ∀ c ∈ pre', c.stop < y.start)
    (hright : ∀ c ∈ post', y.stop < c.start) : Spaced (pre' ++ y :: post') :=
  spaced_middle.2 ⟨h.sublist (hpre.append hpost), hleft, hright⟩

theorem defaultFreePages_spec (h : FreeList s bs) (hbelow : BelowTail s base)
    (hdis : ∀ b ∈ bs, Block.Disjoint ⟨base, n⟩ b)
    (hret : Returns (fun fuel => defaultFreePages fuel s base n) s') :
    0 < n ∧ (∀ p, ¬ Covers bs p → ¬ Block.Mem ⟨base, n⟩ p → s'.page p = s.page p) ∧
      ∃ bs', FreeList s' bs' ∧ (∀ p, Covers bs' p ↔ Covers bs p ∨ Block.Mem ⟨base, n⟩ p) ∧
        (Spaced bs → Spaced bs') := by
  rcases hret.exists_eq (bs.length + 1) with ⟨fuel, hfuel, hrun⟩
  simp only [defaultFreePages, bind_eq_done, assert_eq_done, resetPages_eq_done] at hrun
  rcases hrun with ⟨_, hn, page, ⟨_, hpage⟩, m', hins, hmerge⟩
  let s1 : Pmm := ⟨Function.update page base { page base with property := n, propertyFlag := true },
    m', s.nrFree + n⟩
  have hmerge : s' = mergeNext (mergePrev s1 base).2 (mergePrev s1 base).1 :=
    (done.inj hmerge).symm
  have hbase : Block.Mem ⟨base, n⟩ base := ⟨le_rfl, Nat.lt_add_of_pos_right hn⟩
  have hout : ∀ p, ¬ Block.Mem ⟨base, n⟩ p → s1.page p = s.page p := by
    intro p hp
    have hpb : p ≠ base := fun hc => hp (hc ▸ hbase)
    have hp' : ¬ (base ≤ p ∧ p < base + n) := hp
    simp [s1, hpb, hpage, resetTo, hp']
  have hlink := @FreeList.link s bs base n s1.page m' fuel h hbelow hn hdis hfuel hins hout
    (by simp [s1])
    (by
      intro p hp
      have hp' : base ≤ p ∧ p < base + n := hp
      by_cases hpb : p = base
      · simp [s1, hpb, hpage, resetTo, hn]
      · simp [s1, hpb, hpage, resetTo, hp'])
  rcases hlink with ⟨pre, post, rfl, h1⟩
  have h1 : FreeList s1 (pre ++ ⟨base, n⟩ :: post) := h1
  -- First the block before `base` is fused, then the block after the result.
  rcases mergePrev_spec h1 with ⟨pre', y, hy, h2, hpre', hystop, hyleft⟩
  rcases mergeNext_spec h2.list with ⟨post', z, h3, hpost', hzstart, -, hzright⟩
  have hall := h2.trans h3
  have hy : (mergePrev s1 base).1 = y.start := hy
  have hstate : mergeNext (mergePrev s1 base).2 y.start = s' := by
    rw [hmerge, hy]
  rw [hstate] at hall
  have hcov : ∀ p, Covers (pre ++ ⟨base, n⟩ :: post) p ↔
      Covers (pre ++ post) p ∨ Block.Mem ⟨base, n⟩ p := by
    intro p
    simp only [covers_append, covers_cons]
    tauto
  refine ⟨hn, ?_, pre' ++ z :: post', hall.list, fun p => (hall.cover p).trans (hcov p), ?_⟩
  · intro p hp hp'
    rw [hall.frame p (fun hc => ((hcov p).1 hc).elim hp hp'), hout p hp']
  · intro hsp
    refine spaced_replace hsp hpre' hpost' ?_ (hzright (hsp.sublist (List.sublist_append_right _ _)))
    intro c hc
    rw [hzstart]
    exact hyleft (hsp.sublist (List.sublist_append_left _ _)) c hc

/-- What `default_alloc_pages` does to the list: the first block with `n` pages is cut. -/
def allocFirst (s : Pmm) (bs : List Block) (n : Nat) : Option Nat × Pmm :=
  match bs.find? (fun b => decide (n ≤ b.len)) with
  | none => (none, s)
  | some b => (some b.start, carve s b.start n)

theorem defaultAllocPages_spec (h : FreeList s bs) (hn : 0 < n) :
    Returns (fun fuel => defaultAllocPages fuel s n) (allocFirst s bs n) := by
  refine ⟨bs.length + 1, fun fuel hfuel => ?_⟩
  have hassert : Outcome.assert (n > 0) = done () := assert_of hn
  simp only [defaultAllocPages, hassert, bind_done]
  by_cases hmore : n > s.nrFree
  · -- More pages than the list has: no block can fit.
    have hnone : bs.find? (fun b => decide (n ≤ b.len)) = none := by
      rw [List.find?_eq_none]
      intro b hb
      have h1 := len_le_total hb
      have h2 := h.nrFree
      simp only [decide_eq_true_eq, not_le]
      omega
    simp [hmore, allocFirst, hnone]
  · have hfind := @findFit_eq s n fuel [] bs (by simpa using h) hfuel
    have hfind : findFit s n fuel none =
        done ((bs.find? fun b => decide (n ≤ b.len)).map Block.start) := hfind
    simp only [hmore, if_false, hfind, bind_done, allocFirst]
    cases bs.find? (fun b => decide (n ≤ b.len)) with
    | none => rfl
    | some b => rfl

/-! ## Preservation by each call -/

variable {st st' : PmmState}

theorem WellFormed.initMemmap (w : WellFormed st bs) (hbelow : BelowTail st.mgr base)
    (hret : Returns (fun fuel => defaultInitMemmap fuel st.mgr base n) st'.mgr)
    (hlive : st'.live = st.live) :
    ∃ pre post, bs = pre ++ post ∧ WellFormed st' (pre ++ ⟨base, n⟩ :: post) := by
  rcases defaultInitMemmap_spec w.free hbelow hret with ⟨_, hres, hout, pre, post, rfl, hfree⟩
  refine ⟨pre, post, rfl, hfree, ?_, ?_, ?_, ?_⟩
  · rw [hlive]
    exact w.livePos
  · rw [hlive]
    exact w.liveDisjoint
  all_goals
    -- A page of a range in use is not reserved, so it is not in the new range.
    have hnew : ∀ x ∈ st.live, ∀ p, x.Mem p → ¬ Block.Mem ⟨base, n⟩ p := by
      intro x hx p hp hp'
      have h1 := hres p hp'
      rw [(w.liveFlags x hx p hp).1] at h1
      cases h1
    rw [hlive]
  · intro x hx b hb
    have hb' : b = ⟨base, n⟩ ∨ b ∈ pre ++ post := by
      simp only [List.mem_append, List.mem_cons] at hb ⊢
      tauto
    rcases hb' with rfl | hb'
    · exact hnew x hx
    · exact w.liveApart x hx b hb'
  · intro x hx p hp
    rw [hout p (hnew x hx p hp)]
    exact w.liveFlags x hx p hp

theorem WellFormed.freePages (w : WellFormed st bs) (hbelow : BelowTail st.mgr base)
    (hmem : ⟨base, n⟩ ∈ st.live)
    (hret : Returns (fun fuel => defaultFreePages fuel st.mgr base n) st'.mgr)
    (hlive : st'.live = st.live.erase ⟨base, n⟩) :
    ∃ bs', WellFormed st' bs' ∧ (Spaced bs → Spaced bs') := by
  rcases defaultFreePages_spec w.free hbelow (w.liveApart _ hmem) hret with
    ⟨_, hout, bs', hfree, hcov, hsp⟩
  -- The other ranges in use are disjoint from the one that is freed.
  have hperm : List.Perm st.live (⟨base, n⟩ :: st.live.erase ⟨base, n⟩) :=
    List.perm_cons_erase hmem
  have hpair := hperm.pairwise_iff (fun h => Block.Disjoint.symm h) |>.1 w.liveDisjoint
  rcases List.pairwise_cons.1 hpair with ⟨hother, hrest⟩
  have hsub : ∀ x, x ∈ st.live.erase ⟨base, n⟩ → x ∈ st.live := fun x hx => List.mem_of_mem_erase hx
  have hnew : ∀ x ∈ st.live.erase ⟨base, n⟩, ∀ p, x.Mem p →
      ¬ Covers bs p ∧ ¬ Block.Mem ⟨base, n⟩ p := by
    intro x hx p hp
    refine ⟨?_, fun hc => hother x hx p hc hp⟩
    rintro ⟨b, hb, hbp⟩
    exact w.liveApart x (hsub x hx) b hb p hp hbp
  refine ⟨bs', ⟨hfree, ?_, ?_, ?_, ?_⟩, hsp⟩
  all_goals rw [hlive]
  · exact fun x hx => w.livePos x (hsub x hx)
  · exact hrest
  · intro x hx b hb p hp hbp
    rcases (hcov p).1 ⟨b, hb, hbp⟩ with hc | hc
    · exact (hnew x hx p hp).1 hc
    · exact (hnew x hx p hp).2 hc
  · intro x hx p hp
    rw [hout p (hnew x hx p hp).1 (hnew x hx p hp).2]
    exact w.liveFlags x (hsub x hx) p hp

/-- `n` pages are cut off a free block and handed out. -/
theorem WellFormed.carve (w : WellFormed st (pre ++ b :: post)) (hn : 0 < n) (hfit : n ≤ b.len)
    (hmgr : st'.mgr = TriOS.carve st.mgr b.start n) (hlive : st'.live = ⟨b.start, n⟩ :: st.live) :
    WellFormed st' (pre ++ remainder b n ++ post) ∧
      (Spaced (pre ++ b :: post) → Spaced (pre ++ remainder b n ++ post)) := by
  have hin : ∀ p, Block.Mem ⟨b.start, n⟩ p → b.Mem p := by
    intro p hp
    have h2 : p < b.start + n := hp.2
    exact ⟨hp.1, by unfold Block.stop; omega⟩
  have hbfree : ∀ x ∈ st.live, ∀ p, x.Mem p → ¬ b.Mem p := fun x hx p hp =>
    w.liveApart x hx b (by simp) p hp
  have hcov : ∀ p, Covers (pre ++ remainder b n ++ post) p →
      Covers (pre ++ b :: post) p ∧ ¬ Block.Mem ⟨b.start, n⟩ p := by
    intro p hp
    simp only [covers_append, covers_remainder hfit] at hp
    rcases hp with (hp | hp) | hp
    · exact ⟨by simp [hp], fun hc =>
        w.free.ordered.not_covers (hin p hc) (by simp [hp])⟩
    · refine ⟨?_, fun hc => ?_⟩
      · simp only [covers_append, covers_cons]
        exact Or.inr (Or.inl ⟨by omega, hp.2⟩)
      · have h2 : p < b.start + n := hc.2
        omega
    · exact ⟨by simp [hp], fun hc =>
        w.free.ordered.not_covers (hin p hc) (by simp [hp])⟩
  refine ⟨⟨?_, ?_, ?_, ?_, ?_⟩, ?_⟩
  · rw [hmgr]
    exact w.free.carve hn hfit
  · rw [hlive]
    intro x hx
    rcases List.mem_cons.1 hx with rfl | hx
    · exact hn
    · exact w.livePos x hx
  · rw [hlive]
    refine List.pairwise_cons.2 ⟨?_, w.liveDisjoint⟩
    intro x hx p hp hxp
    exact hbfree x hx p hxp (hin p hp)
  · rw [hlive]
    intro x hx c hc p hp hcp
    have hc' := hcov p ⟨c, hc, hcp⟩
    rcases List.mem_cons.1 hx with rfl | hx
    · exact hc'.2 hp
    · rcases hc'.1 with ⟨d, hd, hdp⟩
      exact w.liveApart x hx d hd p hp hdp
  · rw [hlive, hmgr]
    intro x hx p hp
    rcases List.mem_cons.1 hx with rfl | hx
    · exact carve_page_of_lt w.free hn hfit hp.1 hp.2
    · rw [carve_page_of_not_mem w.free hn (hbfree x hx p hp)]
      exact w.liveFlags x hx p hp
  · intro hsp
    have hsp' := spaced_middle.1 hsp
    by_cases hlt : n < b.len
    · simp only [remainder, hlt, if_true, List.append_assoc, List.singleton_append]
      refine spaced_middle.2 ⟨hsp'.1, ?_, ?_⟩
      · intro c hc
        exact (hsp'.2.1 c hc).trans_le (Nat.le_add_right _ _)
      · intro c hc
        have := hsp'.2.2 c hc
        simp only [Block.stop] at this ⊢
        omega
    · simpa [remainder, hlt] using hsp'.1

theorem WellFormed.alloc (w : WellFormed st bs)
    (hret : Returns (fun fuel => callPmm fuel st (PmmOp.alloc n)) st') :
    ∃ bs', WellFormed st' bs' ∧ (Spaced bs → Spaced bs') := by
  have hn : 0 < n := by
    rcases hret.exists_eq 0 with ⟨fuel, _, hrun⟩
    simp only [callPmm, defaultAllocPages, bind_eq_done, assert_eq_done] at hrun
    rcases hrun with ⟨_, ⟨_, hn, _⟩, _⟩
    exact hn
  have heq : (allocFirst st.mgr bs n).2 = st'.mgr ∧
      st'.live = grant st.live n (allocFirst st.mgr bs n).1 := by
    rcases defaultAllocPages_spec w.free hn with ⟨bound, hbound⟩
    rcases hret.exists_eq bound with ⟨fuel, hfuel, hrun⟩
    simp only [callPmm, hbound fuel hfuel, bind_done] at hrun
    have := done.inj hrun
    subst this
    exact ⟨rfl, rfl⟩
  rcases heq with ⟨hmgr, hlive⟩
  cases hfind : bs.find? (fun b => decide (n ≤ b.len)) with
  | none =>
      simp only [allocFirst, hfind] at hmgr hlive
      have hst : st' = st := by
        cases st'
        subst hmgr hlive
        rfl
      rw [hst]
      exact ⟨bs, w, id⟩
  | some b =>
      simp only [allocFirst, hfind] at hmgr hlive
      have hfit : n ≤ b.len := by
        simpa using List.find?_some hfind
      rcases List.append_of_mem (List.mem_of_find?_eq_some hfind) with ⟨pre, post, rfl⟩
      exact ⟨_, w.carve hn hfit hmgr.symm hlive⟩

/-- Every call below the tail keeps the invariant, and also the gaps if no range is added next to
a free block. -/
theorem WellFormed.step {op : PmmOp} (w : WellFormed st bs) (hbelow : LinksBelowTail st op)
    (hstep : PmmStep st op st') :
    ∃ bs', WellFormed st' bs' ∧ (InitApart st op → Spaced bs → Spaced bs') := by
  rcases hstep with ⟨hallowed, hret⟩
  cases op with
  | initMemmap base n =>
      have hcall : ∀ fuel, callPmm fuel st (PmmOp.initMemmap base n) = done st' →
          defaultInitMemmap fuel st.mgr base n = done st'.mgr ∧ st'.live = st.live := by
        intro fuel hrun
        simp only [callPmm, bind_eq_done] at hrun
        rcases hrun with ⟨m, hm, hst⟩
        cases hst
        exact ⟨hm, rfl⟩
      rcases hret with ⟨bound, hbound⟩
      have hmgr : Returns (fun fuel => defaultInitMemmap fuel st.mgr base n) st'.mgr :=
        ⟨bound, fun fuel hfuel => (hcall fuel (hbound fuel hfuel)).1⟩
      rcases w.initMemmap hbelow hmgr (hcall bound (hbound bound le_rfl)).2 with
        ⟨pre, post, rfl, w'⟩
      refine ⟨_, w', fun hapart hsp => ?_⟩
      have hord := ordered_middle.1 w'.free.ordered
      refine spaced_replace hsp (List.Sublist.refl _) (List.Sublist.refl _) ?_ ?_
      · intro c hc
        exact lt_of_le_of_ne (hord.2.1 c hc) (hapart _ w.free c (by simp [hc])).1
      · intro c hc
        exact lt_of_le_of_ne (hord.2.2 c hc) (hapart _ w.free c (by simp [hc])).2
  | alloc n =>
      rcases w.alloc hret with ⟨bs', w', hsp⟩
      exact ⟨bs', w', fun _ => hsp⟩
  | free base n =>
      have hcall : ∀ fuel, callPmm fuel st (PmmOp.free base n) = done st' →
          defaultFreePages fuel st.mgr base n = done st'.mgr ∧
            st'.live = st.live.erase ⟨base, n⟩ := by
        intro fuel hrun
        simp only [callPmm, bind_eq_done] at hrun
        rcases hrun with ⟨m, hm, hst⟩
        cases hst
        exact ⟨hm, rfl⟩
      rcases hret with ⟨bound, hbound⟩
      have hmgr : Returns (fun fuel => defaultFreePages fuel st.mgr base n) st'.mgr :=
        ⟨bound, fun fuel hfuel => (hcall fuel (hbound fuel hfuel)).1⟩
      rcases w.freePages hbelow hallowed hmgr (hcall bound (hbound bound le_rfl)).2 with
        ⟨bs', w', hsp⟩
      exact ⟨bs', w', fun _ => hsp⟩

/-! ## Linking in above the tail -/

/-- The place loop above the last block: the new node is linked in, visited, and then linked in
once more behind itself. -/
theorem insertLoop_above_tail {m : Links (Option Nat)} {d mid : List Block} {fuel : Nat}
    (r : Ring m none ((d ++ mid ++ [b]).map node)) (hmid : ∀ a ∈ mid ++ [b], a.start < base)
    (hfresh : some base ∉ (d ++ mid ++ [b]).map node) (hfuel : mid.length + 2 < fuel) :
    insertLoop base fuel m ((d.map node).getLastD none) =
      done (listAdd (listAdd m (node b) (some base)) (some base) (some base)) := by
  induction mid generalizing d fuel with
  | nil =>
      rcases Nat.exists_eq_add_of_le' hfuel with ⟨k, rfl⟩
      have r' : Ring m none ((d ++ [b]).map node ++ []) := by
        simpa using r
      have hlast : ((d ++ [b]).map node).getLastD none = some b.start := by
        rw [List.map_append]
        exact getLastD_concat _ _ _
      have hend : listNext m (some b.start) = none := by
        have := r'.next_getLastD
        rw [hlast] at this
        exact this
      have r1 : Ring m none (d.map node ++ node b :: []) := by
        simpa using r
      have hnext : listNext m ((d.map node).getLastD none) = some b.start := r1.next_getLastD
      -- The ring that the first `list_add` makes.
      have hfresh' : some base ∉ none :: ((d ++ [b]).map node ++ []) := by
        simpa using hfresh
      have r2 := ring_listAdd r' hfresh'
      rw [hlast] at r2
      have hnew : listNext (listAdd m (some b.start) (some base)) (some b.start) = some base := by
        have r3 : Ring (listAdd m (some b.start) (some base)) none
            ((d ++ [b]).map node ++ [some base]) := r2
        have := r3.next_getLastD
        rw [hlast] at this
        exact this
      have hnewEnd : listNext (listAdd m (some b.start) (some base)) (some base) = none :=
        r2.next_mem
      have hagain : listNext (listAdd (listAdd m (some b.start) (some base)) (some base)
          (some base)) (some base) = none := by
        unfold listNext
        rw [(listAdd_self _ _).1]
        exact hnewEnd
      have hlt : ¬ base < b.start := (hmid b (by simp)).le.not_gt
      simp only [insertLoop, hnext, hlt, if_false, hend, if_true, hnew, lt_irrefl, hnewEnd, hagain]
      rfl
  | cons a mid ih =>
      cases fuel with
      | zero => simp at hfuel
      | succ fuel =>
          have r' : Ring m none (d.map node ++ (a :: mid ++ [b]).map node) := by
            simpa using r
          have hnext : listNext m ((d.map node).getLastD none) = some a.start :=
            r'.next_getLastD
          have r'' : Ring m none ((d ++ [a]).map node ++ (mid ++ [b]).map node) := by
            simpa using r
          have hlast : ((d ++ [a]).map node).getLastD none = some a.start := by
            rw [List.map_append]
            exact getLastD_concat _ _ _
          have hmore : listNext m (some a.start) ≠ none := by
            have := r''.next_getLastD
            rw [hlast] at this
            unfold listNext
            rw [this]
            cases mid with
            | nil => simp [node]
            | cons c mid => simp [node]
          have hrec := @ih (d ++ [a]) fuel (by simpa using r)
            (fun c hc => hmid c (List.mem_cons_of_mem a hc)) (by simpa using hfresh)
            (Nat.lt_of_succ_lt_succ hfuel)
          rw [hlast] at hrec
          have hlt : ¬ base < a.start := (hmid a (by simp)).le.not_gt
          simp only [insertLoop, hnext, hlt, if_false, hmore]
          exact hrec

/-! ## Runs -/

/-- The list after linking in above the tail is not a ring. -/
theorem not_ring_above_tail {m : Links (Option Nat)} {b : Block} {xs : List (Option Nat)}
    (r : Ring m none ((pre ++ [b]).map node)) (hfresh : some base ∉ (pre ++ [b]).map node) :
    ¬ Ring (listAdd (listAdd m (node b) (some base)) (some base) (some base)) none xs := by
  intro rbad
  have r' : Ring m none ((pre ++ [b]).map node ++ []) := by
    simpa using r
  have hfresh' : some base ∉ none :: ((pre ++ [b]).map node ++ []) := by
    simpa using hfresh
  have hlast : ((pre ++ [b]).map node).getLastD none = node b := by
    rw [List.map_append]
    exact getLastD_concat _ _ _
  have rgood := ring_listAdd r' hfresh'
  rw [hlast] at rgood
  rcases listAdd_self (listAdd m (node b) (some base)) (some base) with ⟨hnext, hprev⟩
  -- Both rings have the same `next`, so every node of the good one is a node of the bad one.
  have hall := rgood.forall_of_next (fun x => x ∈ none :: xs) (by simp) (by
    intro x hx
    rw [← hnext]
    exact (rbad.prev_next hx).2)
  have hb : node b ∈ none :: xs := hall _ (by simp)
  have hgood : (listAdd m (node b) (some base)).next (node b) = some base := by
    have := rgood.next_getLastD
    rw [hlast] at this
    exact this
  have hback := (rbad.prev_next hb).1
  rw [hnext, hgood, hprev] at hback
  exact hfresh (by simp [hback])

theorem insertByAddress_above_tail (h : FreeList s bs) (hnot : ¬ BelowTail s base)
    (hbase : ¬ Covers bs base) :
    ∃ m', Returns (fun fuel => insertByAddress fuel s.freeList base) m' ∧
      listNext m' (some base) = none ∧ listPrev m' (some base) = some base ∧
      ∀ xs, ¬ Ring m' none xs := by
  have hprev : listPrev s.freeList none = (bs.map node).getLastD none := h.ring.prev_head
  rcases List.eq_nil_or_concat bs with rfl | ⟨pre, b, rfl⟩
  · unfold BelowTail at hnot
    rw [hprev] at hnot
    exact absurd trivial hnot
  · rw [List.concat_eq_append] at h hprev hbase
    have hlast : ((pre ++ [b]).map node).getLastD none = some b.start := by
      rw [List.map_append]
      exact getLastD_concat _ _ _
    have hle : b.start ≤ base := by
      unfold BelowTail at hnot
      rw [hprev, hlast] at hnot
      exact not_lt.1 hnot
    have hord : ∀ a ∈ pre, a.stop ≤ b.start := (ordered_middle.1 h.ordered).2.1
    have habove : ∀ a ∈ pre ++ [b], a.start < base := by
      intro a ha
      have hpos := h.pos a ha
      have hne : a.start ≠ base := by
        rintro rfl
        exact hbase ⟨a, ha, le_rfl, by unfold Block.stop; omega⟩
      have hab : a ∈ pre ∨ a = b := by
        simpa using ha
      rcases hab with hab | rfl
      · have := hord a hab
        unfold Block.stop at this
        omega
      · omega
    have hfresh : some base ∉ (pre ++ [b]).map node := by
      intro hc
      rcases List.mem_map.1 hc with ⟨c, hc, hcn⟩
      exact (habove c hc).ne (Option.some.inj hcn)
    have hnonempty : ¬ listEmpty s.freeList none := by
      rw [listEmpty_iff h.ring]
      simp
    refine ⟨_, ⟨pre.length + 3, fun fuel hfuel => ?_⟩, ?_, ?_, fun xs =>
      not_ring_above_tail h.ring hfresh⟩
    · have hloop := @insertLoop_above_tail b base s.freeList [] pre fuel (by simpa using h.ring)
        habove (by simpa using hfresh) hfuel
      change insertByAddress fuel s.freeList base = _
      unfold insertByAddress
      rw [if_neg hnonempty]
      exact hloop
    · have r' : Ring s.freeList none ((pre ++ [b]).map node ++ []) := by
        simpa using h.ring
      have hfresh' : some base ∉ none :: ((pre ++ [b]).map node ++ []) := by
        simpa using hfresh
      have r2 := ring_listAdd r' hfresh'
      rw [hlast] at r2
      unfold listNext
      rw [(listAdd_self _ _).1]
      exact r2.next_mem
    · exact (listAdd_self _ _).2

/-- A call that links a range in above the tail leaves no well-formed list. -/
theorem WellFormed.not_freeList {op : PmmOp} (w : WellFormed st bs) (habove : ¬ LinksBelowTail st op)
    (hstep : PmmStep st op st') : ¬ ∃ bs', FreeList st'.mgr bs' := by
  rintro ⟨bs', hbad⟩
  rcases hstep with ⟨hallowed, hret⟩
  cases op with
  | alloc n => exact habove trivial
  | initMemmap base n =>
      rcases hret.exists_eq 0 with ⟨fuel, _, hrun⟩
      simp only [callPmm, defaultInitMemmap, bind_eq_done, assert_eq_done, resetPages_eq_done]
        at hrun
      rcases hrun with ⟨_, ⟨_, hn, _, ⟨hres, _⟩, _⟩, _⟩
      have hbase : ¬ Covers bs base := by
        intro hc
        have h1 := hres base le_rfl (by omega)
        rw [w.free.usable base hc] at h1
        cases h1
      rcases insertByAddress_above_tail w.free habove hbase with ⟨m', ⟨bound, hm'⟩, -, -, hring⟩
      rcases hret.exists_eq bound with ⟨fuel, hfuel, hrun⟩
      simp only [callPmm, defaultInitMemmap, bind_eq_done, hm' fuel hfuel] at hrun
      rcases hrun with ⟨m, ⟨_, _, page, _, m1, hm1, hm⟩, hst⟩
      cases hm1
      cases hm
      cases hst
      exact hring _ hbad.ring
  | free base n =>
      have hn : 0 < n := w.livePos _ hallowed
      have hbase : ¬ Covers bs base := by
        rintro ⟨b, hb, hbp⟩
        exact w.liveApart _ hallowed b hb base ⟨le_rfl, Nat.lt_add_of_pos_right hn⟩ hbp
      rcases insertByAddress_above_tail w.free habove hbase with
        ⟨m', ⟨bound, hm'⟩, hnext, hprev, hring⟩
      rcases hret.exists_eq bound with ⟨fuel, hfuel, hrun⟩
      simp only [callPmm, defaultFreePages, bind_eq_done, hm' fuel hfuel] at hrun
      rcases hrun with ⟨m, ⟨_, _, page, _, m1, hm1, hm⟩, hst⟩
      cases hm1
      cases hst
      -- The new node is its own predecessor and has no successor: nothing is merged.
      have hself : ¬ base + n = base := by omega
      simp only [mergePrev, hprev, Function.update_self, hself, if_false, mergeNext, hnext] at hm
      cases hm
      exact hring _ hbad.ring

/-- `default_alloc_pages` fails exactly if no free block has `n` pages, and else returns the lowest
block that has them. -/
def AllocatesFirstFit (s : Pmm) (bs : List Block) : Prop :=
  ∀ n, 0 < n → ∃ r s', Returns (fun fuel => defaultAllocPages fuel s n) (r, s') ∧
    (r = none ↔ ∀ b ∈ bs, b.len < n) ∧
    ∀ p, r = some p → ∃ b ∈ bs, b.start = p ∧ n ≤ b.len ∧ ∀ c ∈ bs, n ≤ c.len → p ≤ c.start

theorem FreeList.allocatesFirstFit (h : FreeList s bs) : AllocatesFirstFit s bs := by
  intro n hn
  refine ⟨(allocFirst s bs n).1, (allocFirst s bs n).2, defaultAllocPages_spec h hn, ?_⟩
  cases hfind : bs.find? (fun b => decide (n ≤ b.len)) with
  | none =>
      have hall : ∀ b ∈ bs, b.len < n := by
        simpa using hfind
      simp only [allocFirst, hfind]
      exact ⟨iff_of_true trivial hall, fun p hp => by cases hp⟩
  | some b =>
      have hfit : n ≤ b.len := by
        simpa using List.find?_some hfind
      have hb := List.mem_of_find?_eq_some hfind
      simp only [allocFirst, hfind]
      refine ⟨iff_of_false (Option.some_ne_none _) fun hall => ?_, ?_⟩
      · exact absurd hfit (hall b hb).not_ge
      intro p hp
      cases hp
      refine ⟨b, hb, rfl, hfit, ?_⟩
      intro c hc hcfit
      -- The blocks before the first fit do not fit.
      rcases List.find?_eq_some_iff_append.1 hfind with ⟨_, pre, post, rfl, hpre⟩
      simp only [List.mem_append, List.mem_cons] at hc
      rcases hc with hc | rfl | hc
      · have := hpre c hc
        simp only [Bool.not_eq_eq_eq_not, Bool.not_true, decide_eq_false_iff_not,
          not_le] at this
        omega
      · exact le_rfl
      · have hle : b.stop ≤ c.start := (ordered_middle.1 h.ordered).2.2 c hc
        unfold Block.stop at hle
        omega

theorem wellFormed_start (s : Pmm) : WellFormed (pmmStart s) [] := by
  refine ⟨⟨ring_listInit _ _, List.Pairwise.nil, ?_, ?_, ?_, ?_, rfl⟩, ?_, List.Pairwise.nil, ?_, ?_⟩
  all_goals simp [pmmStart]

/-- Runs in which nothing is linked in above the tail of the list. The invariant holds in every
state, and allocation is first fit. If moreover no range is added next to a free block, then no two
blocks of the list are adjacent. The condition is exact: the first call that does not meet it leaves
a list that is not well formed. -/
theorem first_fit_below_tail (s : Pmm) :
    (∀ ops st, Run (Guarded LinksBelowTail PmmStep) (pmmStart s) ops st →
      ∃ bs, WellFormed st bs ∧ AllocatesFirstFit st.mgr bs) ∧
    (∀ ops st,
      Run (Guarded (fun t op => LinksBelowTail t op ∧ InitApart t op) PmmStep) (pmmStart s) ops st →
        ∃ bs, WellFormed st bs ∧ AllocatesFirstFit st.mgr bs ∧ Spaced bs) ∧
    ∀ ops st op st', Run (Guarded LinksBelowTail PmmStep) (pmmStart s) ops st →
      PmmStep st op st' → ¬ LinksBelowTail st op → ¬ ∃ bs, WellFormed st' bs := by
  have hkeep : ∀ t op u, (∃ bs, WellFormed t bs) → Guarded LinksBelowTail PmmStep t op u →
      ∃ bs, WellFormed u bs := by
    rintro t op u ⟨bs, w⟩ ⟨hbelow, hstep⟩
    rcases w.step hbelow hstep with ⟨bs', w', _⟩
    exact ⟨bs', w'⟩
  refine ⟨fun ops st hrun => ?_, fun ops st hrun => ?_, fun ops st op st' hrun hstep habove => ?_⟩
  · rcases hrun.invariant _ hkeep ⟨[], wellFormed_start s⟩ with ⟨bs, w⟩
    exact ⟨bs, w, w.free.allocatesFirstFit⟩
  · have hinv := hrun.invariant (fun t => ∃ bs, WellFormed t bs ∧ Spaced bs) ?_
      ⟨[], wellFormed_start s, List.Pairwise.nil⟩
    · rcases hinv with ⟨bs, w, hsp⟩
      exact ⟨bs, w, w.free.allocatesFirstFit, hsp⟩
    · rintro t op u ⟨bs, w, hsp⟩ ⟨⟨hbelow, hapart⟩, hstep⟩
      rcases w.step hbelow hstep with ⟨bs', w', hsp'⟩
      exact ⟨bs', w', hsp' hapart hsp⟩
  · rcases hrun.invariant _ hkeep ⟨[], wellFormed_start s⟩ with ⟨bs, w⟩
    rintro ⟨bs', w'⟩
    exact w.not_freeList habove hstep ⟨bs', w'.free⟩

/-! ## A run on a small machine -/

/-- A machine with all pages reserved. -/
def reservedPages : Pmm :=
  { page := fun _ => { ref := 0, reserved := true, propertyFlag := false, property := 0 }
    freeList := { next := fun _ => none, prev := fun _ => none }
    nrFree := 0 }

/-- The state after a list of calls, with a bound on the loops that is enough for two blocks. -/
def afterCalls : List PmmOp → PmmState
  | [] => pmmStart reservedPages
  | op :: ops =>
      match callPmm 3 (afterCalls ops) op with
      | done t => t
      | _ => afterCalls ops

theorem returns_afterCalls {ops : List PmmOp} {op : PmmOp}
    (h : ∀ k, callPmm (k + 3) (afterCalls ops) op = done (afterCalls (op :: ops))) :
    Returns (fun fuel => callPmm fuel (afterCalls ops) op) (afterCalls (op :: ops)) := by
  refine ⟨3, fun fuel hfuel => ?_⟩
  rcases Nat.exists_eq_add_of_le' hfuel with ⟨k, rfl⟩
  exact h k

/-- The guarded runs are not empty: two pages, of which one is taken and given back. -/
theorem first_fit_below_tail_reservedPages :
    ∃ bs, WellFormed (afterCalls [PmmOp.free 0 1, PmmOp.alloc 1, PmmOp.initMemmap 0 2]) bs ∧
      AllocatesFirstFit
        (afterCalls [PmmOp.free 0 1, PmmOp.alloc 1, PmmOp.initMemmap 0 2]).mgr bs := by
  refine (first_fit_below_tail reservedPages).1
    [PmmOp.initMemmap 0 2, PmmOp.alloc 1, PmmOp.free 0 1] _ ?_
  refine Run.cons (t := afterCalls [PmmOp.initMemmap 0 2]) ⟨trivial, trivial, ?_⟩ ?_
  · exact @returns_afterCalls [] _ fun k => rfl
  refine Run.cons (t := afterCalls [PmmOp.alloc 1, PmmOp.initMemmap 0 2]) ⟨trivial, trivial, ?_⟩ ?_
  · exact returns_afterCalls fun k => rfl
  refine Run.cons (t := afterCalls [PmmOp.free 0 1, PmmOp.alloc 1, PmmOp.initMemmap 0 2])
    ⟨?_, ?_, ?_⟩ Run.nil
  · change 0 < 1
    decide
  · change _ ∈ [_]
    decide
  · exact returns_afterCalls fun k => rfl

/-- Two pages are taken and given back, the lower one first: the second free goes above the tail. -/
theorem first_fit_tail_broken :
    ∃ ops st, Run PmmStep (pmmStart reservedPages) ops st ∧
      listPrev st.mgr.freeList (some 1) = some 1 ∧ ¬ ∃ bs, WellFormed st bs := by
  refine ⟨[PmmOp.initMemmap 0 2, PmmOp.alloc 1, PmmOp.alloc 1, PmmOp.free 0 1, PmmOp.free 1 1],
    afterCalls [PmmOp.free 1 1, PmmOp.free 0 1, PmmOp.alloc 1, PmmOp.alloc 1,
      PmmOp.initMemmap 0 2], ?_, by decide, ?_⟩
  · refine Run.cons (t := afterCalls [PmmOp.initMemmap 0 2]) ⟨trivial, ?_⟩ ?_
    · exact @returns_afterCalls [] _ fun k => rfl
    refine Run.cons (t := afterCalls [PmmOp.alloc 1, PmmOp.initMemmap 0 2]) ⟨trivial, ?_⟩ ?_
    · exact returns_afterCalls fun k => rfl
    refine Run.cons (t := afterCalls [PmmOp.alloc 1, PmmOp.alloc 1, PmmOp.initMemmap 0 2])
      ⟨trivial, ?_⟩ ?_
    · exact returns_afterCalls fun k => rfl
    refine Run.cons (t := afterCalls [PmmOp.free 0 1, PmmOp.alloc 1, PmmOp.alloc 1,
      PmmOp.initMemmap 0 2]) ⟨?_, ?_⟩ ?_
    · change _ ∈ [_, _]
      decide
    · exact returns_afterCalls fun k => rfl
    refine Run.cons ⟨?_, ?_⟩ Run.nil
    · change _ ∈ [_]
      decide
    · exact returns_afterCalls fun k => rfl
  · rintro ⟨bs, w⟩
    -- The node of page 0 follows the head, and page 1 follows it but points back to itself.
    have h0 := (w.free.ring.prev_next (x := none) (by simp)).2
    have h1 := (w.free.ring.prev_next (x := some 0) h0).1
    exact absurd h1 (by decide)

end TriOS
