import TriOS.Mm.PmmRuns

/-!
# best_fit_pmm.c — the best-fit page manager

`best_fit_init_memmap` and `best_fit_free_pages` are the functions of the first-fit manager, with its
loop that links a block in above the tail twice. Only the search for a block is another one.
-/

namespace TriOS

open CircularList Blocks Transition Outcome

/-- `best_fit_init_memmap` -/
def bestFitInitMemmap (fuel : Nat) (s : Pmm) (base n : Nat) : Outcome Pmm := do
  assert (n > 0)
  let page ← resetPages (fun p => p.reserved)
    (fun _ => { ref := 0, reserved := false, propertyFlag := false, property := 0 })
    s.page base n
  let page := Function.update page base
    { page base with property := n, propertyFlag := true }
  let freeList ← insertByAddress fuel s.freeList base
  pure { page := page, freeList := freeList, nrFree := s.nrFree + n }

/-- The loop of `best_fit_alloc_pages`. `best` holds `page` and `best_size`; there is none as long as
`best_size` is the largest `size_t`, which is above every block. -/
def findBest (s : Pmm) (n : Nat) : Nat → Option Nat → Option (Nat × Nat) → Outcome (Option Nat)
  | 0, _, _ => Outcome.fuel
  | bound + 1, le, best =>
      match listNext s.freeList le with
      | none => done (best.map Prod.fst)
      | some p =>
          if (s.page p).property ≥ n ∧ ∀ b ∈ best, (s.page p).property < b.2 then
            findBest s n bound (some p) (some (p, (s.page p).property))
          else findBest s n bound (some p) best

/-- `best_fit_alloc_pages` -/
def bestFitAllocPages (fuel : Nat) (s : Pmm) (n : Nat) : Outcome (Option Nat × Pmm) := do
  assert (n > 0)
  if n > s.nrFree then
    pure (none, s)
  else do
    let page ← findBest s n fuel none none
    match page with
    | none => pure (none, s)
    | some page => pure (some page, carve s page n)

/-- `best_fit_free_pages` -/
def bestFitFreePages (fuel : Nat) (s : Pmm) (base n : Nat) : Outcome Pmm := do
  assert (n > 0)
  let page ← resetPages (fun p => !p.reserved && !p.propertyFlag)
    (fun p => { p with ref := 0, reserved := false, propertyFlag := false })
    s.page base n
  let page := Function.update page base
    { page base with property := n, propertyFlag := true }
  let freeList ← insertByAddress fuel s.freeList base
  let s1 : Pmm := { page := page, freeList := freeList, nrFree := s.nrFree + n }
  let (base, s2) := mergePrev s1 base
  pure (mergeNext s2 base)

theorem bestFitInitMemmap_eq : bestFitInitMemmap = defaultInitMemmap := rfl

theorem bestFitFreePages_eq : bestFitFreePages = defaultFreePages := rfl

/-! ## The search -/

/-- The block that the loop ends with, on the list of blocks. -/
def bestBlock (n : Nat) : Option Block → List Block → Option Block
  | best, [] => best
  | best, b :: bs =>
      if n ≤ b.len ∧ ∀ c ∈ best, b.len < c.len then bestBlock n (some b) bs
      else bestBlock n best bs

variable {s : Pmm} {bs rest d : List Block} {b : Block} {best : Option Block} {n fuel base p : Nat}

theorem findBest_eq (h : FreeList s (d ++ rest)) (hfuel : rest.length < fuel) :
    findBest s n fuel ((d.map node).getLastD none) (best.map fun b => (b.start, b.len)) =
      done ((bestBlock n best rest).map Block.start) := by
  induction rest generalizing d fuel best with
  | nil =>
      cases fuel with
      | zero => simp at hfuel
      | succ fuel =>
          have r : Ring s.freeList none (d.map node ++ []) := by
            simpa using h.ring
          have hnext : listNext s.freeList ((d.map node).getLastD none) = none :=
            r.next_getLastD
          simp only [findBest, hnext, bestBlock]
          cases best with
          | none => rfl
          | some b => rfl
  | cons b rest ih =>
      cases fuel with
      | zero => simp at hfuel
      | succ fuel =>
          have r : Ring s.freeList none (d.map node ++ some b.start :: rest.map node) := by
            simpa [node] using h.ring
          have hnext : listNext s.freeList ((d.map node).getLastD none) = some b.start :=
            r.next_getLastD
          have hprop : (s.page b.start).property = b.len := h.property b (by simp)
          have hlast : ((d ++ [b]).map node).getLastD none = some b.start := by
            rw [List.map_append]
            exact getLastD_concat _ _ _
          have hrec := fun best => @ih (d ++ [b]) best fuel (by simpa using h) (by simpa using hfuel)
          rw [hlast] at hrec
          have hbest : (∀ c ∈ best.map fun b => (b.start, b.len), b.len < c.2) ↔
              ∀ c ∈ best, b.len < c.len := by
            cases best with
            | none => simp
            | some c => simp
          simp only [findBest, hnext, hprop, ge_iff_le, hbest, bestBlock]
          split
          · exact hrec (some b)
          · exact hrec best

/-- A better block replaces the best one so far, and among equals the first one stays. -/
theorem bestBlock_spec (hord : Ordered rest) (hbest : ∀ c ∈ best, n ≤ c.len ∧
      ∀ b ∈ rest, c.start ≤ b.start) :
    (bestBlock n best rest = none ↔ best = none ∧ ∀ b ∈ rest, b.len < n) ∧
    ∀ b, bestBlock n best rest = some b → (b ∈ best ∨ b ∈ rest) ∧ n ≤ b.len ∧
      ∀ c, (c ∈ best ∨ c ∈ rest) → n ≤ c.len → b.len < c.len ∨ (b.len = c.len ∧ b.start ≤ c.start) := by
  induction rest generalizing best with
  | nil =>
      refine ⟨by simp [bestBlock], ?_⟩
      intro b hb
      have hb' : best = some b := hb
      subst hb'
      refine ⟨Or.inl rfl, (hbest b rfl).1, ?_⟩
      rintro c (hc | hc) _
      · cases hc
        exact Or.inr ⟨rfl, le_rfl⟩
      · cases hc
  | cons x rest ih =>
      rcases List.pairwise_cons.1 hord with ⟨hfirst, hord'⟩
      have hlow : ∀ b ∈ rest, x.start ≤ b.start := fun b hb =>
        (Nat.le_add_right _ _).trans (hfirst b hb)
      by_cases hx : n ≤ x.len ∧ ∀ c ∈ best, x.len < c.len
      · have hnew := @ih (some x) hord' (by
          intro c hc
          cases hc
          exact ⟨hx.1, hlow⟩)
        have hstep : bestBlock n best (x :: rest) = bestBlock n (some x) rest := if_pos hx
        rw [hstep]
        refine ⟨?_, fun b hb => ?_⟩
        · rw [hnew.1]
          refine iff_of_false (fun hc => by cases hc.1) fun hc => ?_
          have := hc.2 x (by simp)
          omega
        · obtain ⟨hmem, hfit, hleast⟩ := hnew.2 b hb
          refine ⟨?_, hfit, ?_⟩
          · rcases hmem with hmem | hmem
            · cases hmem
              exact Or.inr (by simp)
            · exact Or.inr (by simp [hmem])
          · rintro c (hc | hc) hcfit
            · -- The block that was best before is larger than `x`.
              have h1 := hx.2 c hc
              have h2 := hleast x (Or.inl rfl) hx.1
              omega
            · rcases List.mem_cons.1 hc with rfl | hc
              · exact hleast c (Or.inl rfl) hcfit
              · exact hleast c (Or.inr hc) hcfit
      · have hnew := @ih best hord' fun c hc =>
          ⟨(hbest c hc).1, fun b hb => (hbest c hc).2 b (by simp [hb])⟩
        have hstep : bestBlock n best (x :: rest) = bestBlock n best rest := if_neg hx
        rw [hstep]
        refine ⟨?_, fun b hb => ?_⟩
        · rw [hnew.1]
          constructor
          · rintro ⟨rfl, hall⟩
            refine ⟨rfl, fun b hb => ?_⟩
            rcases List.mem_cons.1 hb with rfl | hb
            · by_contra hc
              exact hx ⟨by omega, fun c hc => by cases hc⟩
            · exact hall b hb
          · exact fun ⟨hnone, hall⟩ => ⟨hnone, fun b hb => hall b (by simp [hb])⟩
        · obtain ⟨hmem, hfit, hleast⟩ := hnew.2 b hb
          refine ⟨hmem.imp_right (List.mem_cons_of_mem x), hfit, ?_⟩
          rintro c (hc | hc) hcfit
          · exact hleast c (Or.inl hc) hcfit
          · rcases List.mem_cons.1 hc with rfl | hc
            · -- `c` was passed over: the best block so far is not larger, and comes before it.
              have hnot : ∃ e ∈ best, e.len ≤ c.len := by
                by_contra hall
                push Not at hall
                exact hx ⟨hcfit, hall⟩
              obtain ⟨e, he, hle⟩ := hnot
              have h1 := hleast e (Or.inl he) (hbest e he).1
              have h2 := (hbest e he).2 c (by simp)
              omega
            · exact hleast c (Or.inr hc) hcfit

/-- The search from the head of the list. -/
theorem bestBlock_none (hord : Ordered rest) :
    (bestBlock n none rest = none ↔ ∀ b ∈ rest, b.len < n) ∧
    ∀ b, bestBlock n none rest = some b → b ∈ rest ∧ n ≤ b.len ∧
      ∀ c ∈ rest, n ≤ c.len → b.len < c.len ∨ (b.len = c.len ∧ b.start ≤ c.start) := by
  have hspec := @bestBlock_spec rest none n hord (by simp)
  refine ⟨hspec.1.trans (by simp), fun b hb => ?_⟩
  obtain ⟨hmem, hfit, hleast⟩ := hspec.2 b hb
  exact ⟨hmem.resolve_left (by simp), hfit, fun c hc => hleast c (Or.inr hc)⟩

/-- What `best_fit_alloc_pages` does to the list. -/
def allocBest (s : Pmm) (bs : List Block) (n : Nat) : Option Nat × Pmm :=
  match bestBlock n none bs with
  | none => (none, s)
  | some b => (some b.start, carve s b.start n)

theorem bestFitAllocPages_spec (h : FreeList s bs) (hn : 0 < n) :
    Returns (fun fuel => bestFitAllocPages fuel s n) (allocBest s bs n) := by
  refine ⟨bs.length + 1, fun fuel hfuel => ?_⟩
  have hassert : Outcome.assert (n > 0) = done () := assert_of hn
  simp only [bestFitAllocPages, hassert, bind_done]
  by_cases hmore : n > s.nrFree
  · -- More pages than the list has: no block can fit.
    have hall : ∀ b ∈ bs, b.len < n := by
      intro b hb
      have h1 := len_le_total hb
      have h2 := h.nrFree
      omega
    have hnone := (bestBlock_none h.ordered).1.2 hall
    simp [hmore, allocBest, hnone]
  · have hfind := @findBest_eq s bs [] none n fuel (by simpa using h) hfuel
    have hfind : findBest s n fuel none none = done ((bestBlock n none bs).map Block.start) := hfind
    simp only [hmore, if_false, hfind, bind_done, allocBest]
    cases bestBlock n none bs with
    | none => rfl
    | some b => rfl

/-! ## Runs -/

/-- One call of the manager. -/
def callBestFit (fuel : Nat) (s : PmmState) : PmmOp → Outcome PmmState
  | PmmOp.initMemmap base n => do
      let mgr ← bestFitInitMemmap fuel s.mgr base n
      pure { mgr := mgr, live := s.live }
  | PmmOp.alloc n => do
      let (page, mgr) ← bestFitAllocPages fuel s.mgr n
      pure { mgr := mgr, live := grant s.live n page }
  | PmmOp.free base n => do
      let mgr ← bestFitFreePages fuel s.mgr base n
      pure { mgr := mgr, live := s.live.erase ⟨base, n⟩ }

/-- One allowed call that returns. -/
def BestFitStep (s : PmmState) (op : PmmOp) (t : PmmState) : Prop :=
  Allowed s op ∧ Returns (fun fuel => callBestFit fuel s op) t

variable {st st' : PmmState} {op : PmmOp} {s' : Pmm}

/-- All calls but allocations are those of the first-fit manager. -/
theorem BestFitStep.pmmStep (h : BestFitStep st op st') (hop : ∀ n, op ≠ PmmOp.alloc n) :
    PmmStep st op st' := by
  cases op with
  | initMemmap base n => exact h
  | alloc n => exact absurd rfl (hop n)
  | free base n => exact h

theorem WellFormed.allocBest (w : WellFormed st bs) (hn : 0 < n) :
    ∃ bs', WellFormed ⟨(allocBest st.mgr bs n).2, grant st.live n (allocBest st.mgr bs n).1⟩ bs' ∧
      (Spaced bs → Spaced bs') := by
  have hspec := bestBlock_none (n := n) w.free.ordered
  cases hbest : bestBlock n none bs with
  | none =>
      simp only [TriOS.allocBest, hbest]
      exact ⟨bs, w, id⟩
  | some b =>
      obtain ⟨hb, hfit, _⟩ := hspec.2 b hbest
      rcases List.append_of_mem hb with ⟨pre, post, rfl⟩
      simp only [TriOS.allocBest, hbest]
      exact ⟨_, w.carve hn hfit rfl rfl⟩

theorem WellFormed.bestFitStep (w : WellFormed st bs) (hbelow : LinksBelowTail st op)
    (hstep : BestFitStep st op st') :
    ∃ bs', WellFormed st' bs' ∧ (InitApart st op → Spaced bs → Spaced bs') := by
  cases op with
  | initMemmap base n => exact w.step hbelow (hstep.pmmStep (by simp))
  | free base n => exact w.step hbelow (hstep.pmmStep (by simp))
  | alloc n =>
      have hret := hstep.2
      have hn : 0 < n := by
        rcases hret.exists_eq 0 with ⟨fuel, _, hrun⟩
        simp only [callBestFit, bestFitAllocPages, bind_eq_done, assert_eq_done] at hrun
        rcases hrun with ⟨_, ⟨_, hn, _⟩, _⟩
        exact hn
      rcases bestFitAllocPages_spec w.free hn with ⟨bound, hbound⟩
      rcases hret.exists_eq bound with ⟨fuel, hfuel, hrun⟩
      simp only [callBestFit, hbound fuel hfuel, bind_done] at hrun
      cases hrun
      rcases w.allocBest hn with ⟨bs', w', hsp⟩
      exact ⟨bs', w', fun _ => hsp⟩

/-- `best_fit_free_pages` of a range in use that is below the tail returns. -/
theorem WellFormed.free_returns (w : WellFormed st bs) (hbelow : BelowTail st.mgr base)
    (hmem : ⟨base, n⟩ ∈ st.live) :
    ∃ s', Returns (fun fuel => bestFitFreePages fuel st.mgr base n) s' := by
  have hn : 0 < n := w.livePos _ hmem
  rcases w.free.place hbelow hn (w.liveApart _ hmem) with ⟨_, _, m', _, _, _, hins, _⟩
  let clear : Page → Page := fun p => { p with ref := 0, reserved := false, propertyFlag := false }
  let page := resetTo clear st.mgr.page base n
  let s1 : Pmm :=
    { page := Function.update page base { page base with property := n, propertyFlag := true }
      freeList := m'
      nrFree := st.mgr.nrFree + n }
  have hreset : resetPages (fun p => !p.reserved && !p.propertyFlag) clear st.mgr.page base n =
      done page := by
    rw [resetPages_eq_done]
    refine ⟨fun p h1 h2 => ?_, rfl⟩
    have hflags := w.liveFlags _ hmem p ⟨h1, h2⟩
    simp [hflags.1, hflags.2]
  have hassert : Outcome.assert (n > 0) = done () := assert_of hn
  refine ⟨mergeNext (mergePrev s1 base).2 (mergePrev s1 base).1, bs.length + 1,
    fun fuel hfuel => ?_⟩
  simp only [bestFitFreePages, hassert, bind_done]
  rw [hreset, bind_done, hins fuel hfuel]
  rfl

/-- `best_fit_alloc_pages` fails exactly if no free block has `n` pages. Else it takes the first `n`
pages of the smallest block that has them, the lowest of these, and what is left of the block stays
in its place. -/
def AllocatesBestFit (s : Pmm) (bs : List Block) : Prop :=
  ∀ n, 0 < n → ∃ r s', Returns (fun fuel => bestFitAllocPages fuel s n) (r, s') ∧
    (r = none ↔ ∀ b ∈ bs, b.len < n) ∧
    ∀ p, r = some p → ∃ pre b post, bs = pre ++ b :: post ∧ b.start = p ∧ n ≤ b.len ∧
      (∀ c ∈ bs, n ≤ c.len → b.len < c.len ∨ (b.len = c.len ∧ b.start ≤ c.start)) ∧
      FreeList s' (pre ++ remainder b n ++ post)

theorem FreeList.allocatesBestFit (h : FreeList s bs) : AllocatesBestFit s bs := by
  intro n hn
  have hspec := bestBlock_none (n := n) h.ordered
  refine ⟨(allocBest s bs n).1, (allocBest s bs n).2, bestFitAllocPages_spec h hn, ?_⟩
  cases hbest : bestBlock n none bs with
  | none =>
      have hall := hspec.1.1 hbest
      simp only [allocBest, hbest]
      exact ⟨iff_of_true trivial hall, fun p hp => by cases hp⟩
  | some b =>
      obtain ⟨hb, hfit, hleast⟩ := hspec.2 b hbest
      simp only [allocBest, hbest]
      refine ⟨iff_of_false (Option.some_ne_none _) fun hall => ?_, ?_⟩
      · exact absurd hfit (hall b hb).not_ge
      intro p hp
      cases hp
      rcases List.append_of_mem hb with ⟨pre, post, rfl⟩
      exact ⟨pre, b, post, rfl, rfl, hfit, hleast, h.carve hn hfit⟩

/-- Freeing what has just been allocated gives back the free blocks that were there, if it is not
linked in above the tail. -/
def FreeRestores (s : Pmm) (bs : List Block) : Prop :=
  ∀ n p s', Returns (fun fuel => bestFitAllocPages fuel s n) (some p, s') → BelowTail s' p →
    ∃ s'', Returns (fun fuel => bestFitFreePages fuel s' p n) s'' ∧ FreeList s'' bs ∧
      s''.nrFree = s.nrFree

theorem WellFormed.freeRestores (w : WellFormed st bs) (hsp : Spaced bs) :
    FreeRestores st.mgr bs := by
  intro n p s' hret hbelow
  have hn : 0 < n := by
    rcases hret.exists_eq 0 with ⟨fuel, _, hrun⟩
    simp only [bestFitAllocPages, bind_eq_done, assert_eq_done] at hrun
    rcases hrun with ⟨_, hn, _⟩
    exact hn
  obtain ⟨r, t, hret', _, hsome⟩ := w.free.allocatesBestFit n hn
  cases hret.unique hret'
  obtain ⟨pre, b, post, rfl, rfl, hfit, _, _⟩ := hsome p rfl
  have heq := hret.unique (bestFitAllocPages_spec w.free hn)
  have hs' : s' = TriOS.carve st.mgr b.start n := by
    unfold TriOS.allocBest at heq
    cases hbest : bestBlock n none (pre ++ b :: post) with
    | none =>
        rw [hbest] at heq
        cases heq
    | some c =>
        rw [hbest] at heq
        have hstart := Option.some.inj (Prod.mk.inj heq).1
        rw [hstart]
        exact (Prod.mk.inj heq).2
  let t : PmmState := ⟨s', ⟨b.start, n⟩ :: st.live⟩
  have hmgr : t.mgr = TriOS.carve st.mgr b.start n := hs'
  obtain ⟨w', hsp'⟩ := w.carve hn hfit hmgr rfl
  have hmem : ⟨b.start, n⟩ ∈ t.live := List.mem_cons_self
  obtain ⟨s'', hfree⟩ := w'.free_returns hbelow hmem
  obtain ⟨_, _, bs', hlist, hcov, hspaced⟩ :=
    defaultFreePages_spec w'.free hbelow (w'.liveApart _ hmem) hfree
  -- The two lists have gaps between their blocks and the same pages.
  have hsame : bs' = pre ++ b :: post := by
    refine Spaced.unique (hspaced (hsp' hsp)) hsp hlist.pos w.free.pos fun p => ?_
    rw [hcov]
    simp only [covers_append, covers_cons, covers_remainder hfit]
    have hblock : b.Mem p ↔ (b.start + n ≤ p ∧ p < b.stop) ∨ Block.Mem ⟨b.start, n⟩ p := by
      unfold Block.Mem Block.stop
      dsimp only
      omega
    rw [hblock]
    tauto
  subst hsame
  exact ⟨s'', hfree, hlist, hlist.nrFree.trans w.free.nrFree.symm⟩

/-- Runs in which nothing is linked in above the tail of the list. The invariant holds in every
state, and allocation is best fit. If moreover no range is added next to a free block, then no two
blocks of the list are adjacent, and freeing what has just been allocated restores the list. The
condition is exact: the first call that does not meet it leaves a list that is not well formed. -/
theorem best_fit_below_tail (s : Pmm) :
    (∀ ops st, Run (Guarded LinksBelowTail BestFitStep) (pmmStart s) ops st →
      ∃ bs, WellFormed st bs ∧ AllocatesBestFit st.mgr bs) ∧
    (∀ ops st,
      Run (Guarded (fun t op => LinksBelowTail t op ∧ InitApart t op) BestFitStep) (pmmStart s) ops
        st → ∃ bs, WellFormed st bs ∧ AllocatesBestFit st.mgr bs ∧ Spaced bs ∧
          FreeRestores st.mgr bs) ∧
    ∀ ops st op st', Run (Guarded LinksBelowTail BestFitStep) (pmmStart s) ops st →
      BestFitStep st op st' → ¬ LinksBelowTail st op → ¬ ∃ bs, WellFormed st' bs := by
  have hkeep : ∀ t op u, (∃ bs, WellFormed t bs) → Guarded LinksBelowTail BestFitStep t op u →
      ∃ bs, WellFormed u bs := by
    rintro t op u ⟨bs, w⟩ ⟨hbelow, hstep⟩
    rcases w.bestFitStep hbelow hstep with ⟨bs', w', _⟩
    exact ⟨bs', w'⟩
  refine ⟨fun ops st hrun => ?_, fun ops st hrun => ?_, fun ops st op st' hrun hstep habove => ?_⟩
  · rcases hrun.invariant _ hkeep ⟨[], wellFormed_start s⟩ with ⟨bs, w⟩
    exact ⟨bs, w, w.free.allocatesBestFit⟩
  · have hinv := hrun.invariant (fun t => ∃ bs, WellFormed t bs ∧ Spaced bs) ?_
      ⟨[], wellFormed_start s, List.Pairwise.nil⟩
    · rcases hinv with ⟨bs, w, hsp⟩
      exact ⟨bs, w, w.free.allocatesBestFit, hsp, w.freeRestores hsp⟩
    · rintro t op u ⟨bs, w, hsp⟩ ⟨⟨hbelow, hapart⟩, hstep⟩
      rcases w.bestFitStep hbelow hstep with ⟨bs', w', hsp'⟩
      exact ⟨bs', w', hsp' hapart hsp⟩
  · rcases hrun.invariant _ hkeep ⟨[], wellFormed_start s⟩ with ⟨bs, w⟩
    rintro ⟨bs', w'⟩
    refine w.not_freeList habove (hstep.pmmStep ?_) ⟨bs', w'.free⟩
    rintro n rfl
    exact habove trivial

/-! ## A run on a small machine -/

/-- The state after a list of calls, with a bound on the loops that is enough for two blocks. -/
def afterBestFit : List PmmOp → PmmState
  | [] => pmmStart reservedPages
  | op :: ops =>
      match callBestFit 3 (afterBestFit ops) op with
      | done t => t
      | _ => afterBestFit ops

theorem returns_afterBestFit {ops : List PmmOp} {op : PmmOp}
    (h : ∀ k, callBestFit (k + 3) (afterBestFit ops) op = done (afterBestFit (op :: ops))) :
    Returns (fun fuel => callBestFit fuel (afterBestFit ops) op) (afterBestFit (op :: ops)) := by
  refine ⟨3, fun fuel hfuel => ?_⟩
  rcases Nat.exists_eq_add_of_le' hfuel with ⟨k, rfl⟩
  exact h k

/-- The guarded runs are not empty: two pages, of which one is taken. -/
theorem best_fit_below_tail_reservedPages :
    ∃ bs, WellFormed (afterBestFit [PmmOp.alloc 1, PmmOp.initMemmap 0 2]) bs ∧
      AllocatesBestFit (afterBestFit [PmmOp.alloc 1, PmmOp.initMemmap 0 2]).mgr bs := by
  refine (best_fit_below_tail reservedPages).1 [PmmOp.initMemmap 0 2, PmmOp.alloc 1] _ ?_
  refine Run.cons (t := afterBestFit [PmmOp.initMemmap 0 2]) ⟨trivial, trivial, ?_⟩ ?_
  · exact @returns_afterBestFit [] _ fun k => rfl
  refine Run.cons (t := afterBestFit [PmmOp.alloc 1, PmmOp.initMemmap 0 2]) ⟨trivial, trivial, ?_⟩
    Run.nil
  exact returns_afterBestFit fun k => rfl

/-- Two pages are taken and given back, the lower one first: the second free goes above the tail. -/
theorem best_fit_tail_broken :
    ∃ ops st, Run BestFitStep (pmmStart reservedPages) ops st ∧
      listPrev st.mgr.freeList (some 1) = some 1 ∧ ¬ ∃ bs, WellFormed st bs := by
  refine ⟨[PmmOp.initMemmap 0 2, PmmOp.alloc 1, PmmOp.alloc 1, PmmOp.free 0 1, PmmOp.free 1 1],
    afterBestFit [PmmOp.free 1 1, PmmOp.free 0 1, PmmOp.alloc 1, PmmOp.alloc 1,
      PmmOp.initMemmap 0 2], ?_, by decide, ?_⟩
  · refine Run.cons (t := afterBestFit [PmmOp.initMemmap 0 2]) ⟨trivial, ?_⟩ ?_
    · exact @returns_afterBestFit [] _ fun k => rfl
    refine Run.cons (t := afterBestFit [PmmOp.alloc 1, PmmOp.initMemmap 0 2]) ⟨trivial, ?_⟩ ?_
    · exact returns_afterBestFit fun k => rfl
    refine Run.cons (t := afterBestFit [PmmOp.alloc 1, PmmOp.alloc 1, PmmOp.initMemmap 0 2])
      ⟨trivial, ?_⟩ ?_
    · exact returns_afterBestFit fun k => rfl
    refine Run.cons (t := afterBestFit [PmmOp.free 0 1, PmmOp.alloc 1, PmmOp.alloc 1,
      PmmOp.initMemmap 0 2]) ⟨?_, ?_⟩ ?_
    · change _ ∈ [_, _]
      decide
    · exact returns_afterBestFit fun k => rfl
    refine Run.cons ⟨?_, ?_⟩ Run.nil
    · change _ ∈ [_]
      decide
    · exact returns_afterBestFit fun k => rfl
  · rintro ⟨bs, w⟩
    -- The node of page 0 follows the head, and page 1 follows it but points back to itself.
    have h0 := (w.free.ring.prev_next (x := none) (by simp)).2
    have h1 := (w.free.ring.prev_next (x := some 0) h0).1
    exact absurd h1 (by decide)

end TriOS
