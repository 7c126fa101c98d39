import TriOS.Libs.List
import TriOS.Library.SecondChance
import TriOS.Library.Transition

/-!
# swap_clock.c — the clock replacement of pages

The pages that can be swapped out are in a circular list, and `curr_ptr` is the node that was looked at last. After
an eviction this is the node of the victim, which is not in the list any more, and the next scan goes on from the
links that the node had. A page is named by its node.
-/

namespace TriOS

open CircularList Outcome SecondChance Transition

variable {α : Type} [DecidableEq α]

/-- `pra_list_head` with its list, `curr_ptr`, the flags `visited` of the pages, and the nodes that `curr_ptr` has
stepped to, the last one first. -/
structure SwapClock (α : Type) where
  links : Links α
  currPtr : α
  visited : α → Nat
  reached : List α

/-- `_clock_init_mm` -/
def clockInitMm (m : Links α) (visited : α → Nat) (head : α) : SwapClock α :=
  { links := listInit m head, currPtr := head, visited := visited, reached := [] }

/-- `_clock_map_swappable` -/
def clockMapSwappable (s : SwapClock α) (head page : α) : SwapClock α :=
  { s with
    links := listAddBefore s.links head page
    visited := Function.update s.visited page 1 }

/-- `curr_ptr = list_next(curr_ptr)` -/
def SwapClock.step (s : SwapClock α) : SwapClock α :=
  { s with
    currPtr := listNext s.links s.currPtr
    reached := listNext s.links s.currPtr :: s.reached }

/-- The loop of `_clock_swap_out_victim`. -/
def clockVictimLoop (head : α) : Nat → SwapClock α → Outcome (Option α × SwapClock α)
  | 0, _ => fuel
  | bound + 1, s =>
      let s := s.step
      if s.currPtr = head ∧ s.step.currPtr = head then pure (none, s.step)
      else
        let s := if s.currPtr = head then s.step else s
        if s.visited s.currPtr = 0 then pure (some s.currPtr, { s with links := listDel s.links s.currPtr })
        else clockVictimLoop head bound { s with visited := Function.update s.visited s.currPtr 0 }

/-- `_clock_swap_out_victim` -/
def clockSwapOutVictim (head : α) (bound : Nat) (s : SwapClock α) (inTick : Int) :
    Outcome (Option α × SwapClock α) := do
  assert (inTick = 0)
  clockVictimLoop head bound s

/-! ## The scan -/

/-- From the node, the pages come in this order. -/
def ScanFrom (m : Links α) (h : α) (xs : List α) (node : α) (o : List α) : Prop :=
  ∃ l r, xs = l ++ r ∧ o = r ++ l ∧ m.next node = r.headD h

/-- `curr_ptr` has made at most `n` steps, each to one of the nodes. -/
def SwapClock.Steps (s : SwapClock α) (nodes : List α) (n : Nat) (s' : SwapClock α) : Prop :=
  ∃ ds, s'.reached = ds ++ s.reached ∧ (∀ x ∈ ds, x ∈ nodes) ∧ ds.length ≤ n

variable {s s' s'' : SwapClock α} {c : Clock α} {m : Links α} {h p v node : α} {xs o ps l r nodes : List α}
  {n k bound : Nat}

omit [DecidableEq α] in
theorem SwapClock.Steps.trans (hs : s.Steps nodes n s') (hs' : s'.Steps nodes k s'') : s.Steps nodes (n + k) s'' := by
  obtain ⟨ds, hreached, hds, hlen⟩ := hs
  obtain ⟨ds', hreached', hds', hlen'⟩ := hs'
  refine ⟨ds' ++ ds, ?_, fun x hx => ?_, ?_⟩
  · rw [hreached', hreached, List.append_assoc]
  · rcases List.mem_append.1 hx with hx | hx
    · exact hds' x hx
    · exact hds x hx
  · rw [List.length_append]
    omega

omit [DecidableEq α] in
/-- The next page of the scan comes after the node, or after the head. -/
theorem ScanFrom.next (hring : Ring m h xs) (hscan : ScanFrom m h xs node (p :: o)) :
    (m.next node = p ∨ m.next node = h ∧ m.next h = p) ∧ p ∈ xs ∧ ScanFrom m h xs p (o ++ [p]) := by
  obtain ⟨l, r, rfl, horder, hnext⟩ := hscan
  cases r with
  | nil =>
      rw [List.nil_append] at horder
      subst horder
      rw [List.append_nil] at hring ⊢
      refine ⟨Or.inr ⟨hnext, hring.next_head⟩, List.mem_cons_self, [p], o, rfl, rfl, ?_⟩
      have hring' : Ring m h ([] ++ p :: o) := hring
      exact hring'.next_mem
  | cons q r =>
      rw [List.cons_append] at horder
      obtain ⟨rfl, rfl⟩ := List.cons.inj horder
      refine ⟨Or.inl hnext, List.mem_append_right l List.mem_cons_self, l ++ [p], r, by simp, by simp, ?_⟩
      exact hring.next_mem

/-- A round of the loop. -/
theorem clockVictimLoop_round (hring : Ring s.links h xs) (hscan : ScanFrom s.links h xs s.currPtr (p :: o)) :
    ∃ s', s'.links = s.links ∧ s'.visited = s.visited ∧ s'.currPtr = p ∧ s.Steps (h :: xs) 2 s' ∧
      ∀ bound, clockVictimLoop h (bound + 1) s =
        if s'.visited p = 0 then done (some p, { s' with links := listDel s'.links p })
        else clockVictimLoop h bound { s' with visited := Function.update s'.visited p 0 } := by
  obtain ⟨hnext, hp, -⟩ := hscan.next hring
  have hne : p ≠ h := fun heq => hring.not_mem (heq ▸ hp)
  rcases hnext with hnext | ⟨hnext, hhead⟩
  · refine ⟨s.step, rfl, rfl, hnext, ⟨[p], ?_, ?_, Nat.le_succ 1⟩, fun bound => ?_⟩
    · simp [SwapClock.step, listNext, hnext]
    · intro x hx
      rw [List.mem_singleton.1 hx]
      exact List.mem_cons_of_mem h hp
    · have hcurr : s.step.currPtr = p := hnext
      rw [clockVictimLoop]
      dsimp only
      rw [if_neg (fun hand => hne (hcurr.symm.trans hand.1)), if_neg (fun heq => hne (hcurr.symm.trans heq)), hcurr]
      rfl
  · refine ⟨s.step.step, rfl, rfl, ?_, ⟨[p, h], ?_, ?_, le_refl 2⟩, fun bound => ?_⟩
    · simp [SwapClock.step, listNext, hnext, hhead]
    · simp [SwapClock.step, listNext, hnext, hhead]
    · intro x hx
      rcases List.mem_cons.1 hx with rfl | hx
      · exact List.mem_cons_of_mem h hp
      · rw [List.mem_singleton.1 hx]
        exact List.mem_cons_self
    · have hcurr : s.step.currPtr = h := hnext
      have hcurr' : s.step.step.currPtr = p := by
        simp [SwapClock.step, listNext, hnext, hhead]
      rw [clockVictimLoop]
      dsimp only
      rw [if_neg (fun hand => hne (hcurr'.symm.trans hand.2)), if_pos hcurr, hcurr']
      rfl

theorem clear_cons (visited : α → Nat) : clear (Function.update visited p 0) ps = clear visited (p :: ps) := by
  funext x
  unfold clear
  by_cases hx : x = p
  · simp [hx]
  · simp [hx]

/-- The induction is on the pages that are passed: each of them goes to the end of the order. -/
theorem clockVictimLoop_pass (hring : Ring s.links h xs) (hscan : ScanFrom s.links h xs s.currPtr (ps ++ o))
    (hnodup : ps.Nodup) (hvisited : ∀ p ∈ ps, s.visited p ≠ 0) :
    ∃ s', s'.links = s.links ∧ s'.visited = clear s.visited ps ∧ ScanFrom s.links h xs s'.currPtr (o ++ ps) ∧
      s.Steps (h :: xs) (2 * ps.length) s' ∧
      ∀ bound, clockVictimLoop h (bound + ps.length) s = clockVictimLoop h bound s' := by
  induction ps generalizing s o with
  | nil =>
      refine ⟨s, rfl, ?_, ?_, ⟨[], rfl, fun x hx => (List.not_mem_nil hx).elim, Nat.zero_le _⟩, fun _ => rfl⟩
      · funext x
        simp [clear]
      · rw [List.append_nil]
        exact hscan
  | cons p ps ih =>
      obtain ⟨hp, hnodup⟩ := List.nodup_cons.1 hnodup
      obtain ⟨s₁, hlinks, hflags, hcurr, hsteps, hround⟩ := clockVictimLoop_round hring hscan
      have hnext := (hscan.next hring).2.2
      rw [List.append_eq, List.append_assoc] at hnext
      have hflag : s₁.visited p ≠ 0 := by
        rw [hflags]
        exact hvisited p List.mem_cons_self
      have hscan₁ : ScanFrom s₁.links h xs s₁.currPtr (ps ++ (o ++ [p])) := by
        rw [hlinks, hcurr]
        exact hnext
      have hvisited₁ : ∀ q ∈ ps, Function.update s₁.visited p 0 q ≠ 0 := by
        intro q hq
        have hne : q ≠ p := fun heq => hp (heq ▸ hq)
        rw [Function.update_of_ne hne, hflags]
        exact hvisited q (List.mem_cons_of_mem p hq)
      obtain ⟨s', hlinks', hflags', hscan', hsteps', hpass⟩ :=
        @ih { s₁ with visited := Function.update s₁.visited p 0 } (o ++ [p]) (hlinks.symm ▸ hring) hscan₁ hnodup hvisited₁
      refine ⟨s', hlinks'.trans hlinks, ?_, ?_, ?_, fun bound => ?_⟩
      · rw [hflags', hflags]
        exact clear_cons s.visited
      · rw [hlinks, List.append_assoc] at hscan'
        exact hscan'
      · have hsum : s.Steps (h :: xs) (2 + 2 * ps.length) s' := hsteps.trans hsteps'
        rw [List.length_cons]
        have hlen : 2 + 2 * ps.length = 2 * (ps.length + 1) := by omega
        rwa [hlen] at hsum
      · rw [List.length_cons, ← Nat.add_assoc, hround, if_neg hflag]
        exact hpass bound

/-! ## The code and the algorithm -/

/-- The list has the pages of the algorithm, and the next scan begins where its hand is. -/
structure SwapClock.Refines (head : α) (s : SwapClock α) (c : Clock α) : Prop where
  ring : Ring s.links head c.pages
  hand : s.links.next s.currPtr = c.ahead.headD head ∨ s.links.next s.currPtr = head ∧ c.behind = []
  visited : s.visited = c.visited

omit [DecidableEq α] in
theorem SwapClock.Refines.scan (hs : s.Refines h c) : ScanFrom s.links h c.pages s.currPtr c.order := by
  rcases hs.hand with hnext | ⟨hnext, hbehind⟩
  · exact ⟨c.behind, c.ahead, rfl, rfl, hnext⟩
  · refine ⟨c.ahead, [], ?_, ?_, hnext⟩
    · simp [Clock.pages, hbehind]
    · simp [Clock.order, hbehind]

theorem listDel_next (m : Links α) (v node : α) :
    (listDel m v).next node = if node = m.prev v then m.next v else m.next node := by
  simp [listDel, listDelBetween, Links.setNext_next]

theorem listAddBefore_next (m : Links α) (h p node : α) :
    (listAddBefore m h p).next node = if node = p then h else if node = m.prev h then p else m.next node := by
  simp [listAddBefore, listAddBetween, Links.setNext_next]

/-- A victim leaves the list, and its node still has its links. -/
theorem refines_restAt (hring : Ring s.links h xs) (hv : v ∈ xs) (hcurr : s.currPtr = v) :
    SwapClock.Refines h { s with links := listDel s.links v }
      (Clock.restAt (xs.takeWhile fun p => p ≠ v) (xs.dropWhile fun p => p ≠ v).tail s.visited) := by
  obtain ⟨l, r, rfl, hl⟩ := List.eq_append_cons_of_mem hv
  have hbefore : ∀ p ∈ l, decide (p ≠ v) = true := fun p hp => decide_eq_true fun heq => hl (heq ▸ hp)
  have htake : ((l ++ v :: r).takeWhile fun p => p ≠ v) = l := by
    rw [List.takeWhile_append_of_pos hbefore, List.takeWhile_cons, if_neg (by simp), List.append_nil]
  have hdrop : ((l ++ v :: r).dropWhile fun p => p ≠ v).tail = r := by
    rw [List.dropWhile_append_of_pos hbefore, List.dropWhile_cons, if_neg (by simp), List.tail_cons]
  rw [htake, hdrop]
  have hprev : v ≠ s.links.prev v := by
    rw [hring.prev_mem]
    intro heq
    rcases List.eq_nil_or_concat l with rfl | ⟨us, u, rfl⟩
    · exact hring.not_mem (heq ▸ hv)
    · rw [List.concat_eq_append, getLastD_concat] at heq
      exact hl (by simp [heq])
  have hnext : (listDel s.links v).next s.currPtr = r.headD h := by
    rw [hcurr, listDel_next, if_neg hprev, hring.next_mem]
  refine ⟨?_, ?_, Clock.restAt_visited.symm⟩
  · rw [Clock.restAt_pages]
    exact ring_listDel hring
  · unfold Clock.restAt
    split
    · rename_i hr
      rw [hr] at hnext
      exact Or.inr ⟨hnext, rfl⟩
    · exact Or.inl hnext

/-- The scan ends, with the victim of the algorithm, after at most two rounds of the list. -/
theorem clockVictimLoop_spec (hs : s.Refines h c) (hne : c.pages ≠ []) :
    ∃ v s', c.victim = some v ∧ s'.Refines h c.evict ∧ s.Steps (h :: c.pages) (2 * (c.pages.length + 1)) s' ∧
      Returns (fun bound => clockVictimLoop h bound s) (some v, s') := by
  obtain ⟨v, rest, o, hvictim, horder, hfirst, hflag⟩ := Clock.exists_victim hne
  have hscan := hs.scan
  rw [horder] at hscan
  have hnodup := Clock.nodup_passed (List.nodup_cons.1 hs.ring.nodup).2
  have hvisited : ∀ p ∈ c.passed, s.visited p ≠ 0 := by
    intro p hp
    rw [hs.visited]
    exact Clock.mem_passed hp
  obtain ⟨s₁, hlinks₁, hflags₁, hscan₁, hsteps₁, hpass⟩ := clockVictimLoop_pass hs.ring hscan hnodup hvisited
  rw [hfirst, ← hlinks₁] at hscan₁
  have hring₁ : Ring s₁.links h c.pages := hlinks₁.symm ▸ hs.ring
  obtain ⟨s₂, hlinks₂, hflags₂, hcurr₂, hsteps₂, hround⟩ := clockVictimLoop_round hring₁ hscan₁
  have hring₂ : Ring s₂.links h c.pages := hlinks₂.symm ▸ hring₁
  have hv := (hscan₁.next hring₁).2.1
  have hzero : s₂.visited v = 0 := by
    rw [hflags₂, hflags₁, hs.visited]
    exact hflag
  refine ⟨v, { s₂ with links := listDel s₂.links v }, hvictim, ?_, ?_, c.passed.length + 1, fun bound hbound => ?_⟩
  · have hrest := refines_restAt hring₂ hv hcurr₂
    unfold Clock.evict
    rw [hvictim]
    dsimp only
    rwa [hflags₂, hflags₁, hs.visited, ← hs.visited, ← hflags₁, ← hflags₂] at hrest ⊢
  · obtain ⟨ds, hreached, hds, hlen⟩ := hsteps₁.trans hsteps₂
    have hle : c.passed.length ≤ c.pages.length := Clock.length_passed_le
    exact ⟨ds, hreached, hds, by omega⟩
  · obtain ⟨n, rfl⟩ := Nat.exists_eq_add_of_le hbound
    have hsplit : c.passed.length + 1 + n = (n + 1) + c.passed.length := by omega
    dsimp only
    rw [hsplit, hpass, hround, if_pos hzero]

/-- A new page goes to the end of the list. This does not move the hand unless the hand rests on the last page of
the list, or on the node of the new page while another page than the first one of the list is next. -/
def HandKept (h : α) (s : SwapClock α) (c : Clock α) (page : α) : Prop :=
  ¬ (s.currPtr ∈ c.pages ∧ s.links.next s.currPtr = h) ∧ (s.currPtr = page → c.behind = [])

theorem clockMapSwappable_spec (hs : s.Refines h c) (hp : p ∉ h :: c.pages) :
    (clockMapSwappable s h p).Refines h (c.map p) ↔ HandKept h s c p := by
  have hph : p ≠ h := fun heq => hp (heq ▸ List.mem_cons_self)
  have hpages : (c.map p).pages = c.pages ++ [p] := by
    unfold Clock.map Clock.pages
    rw [List.append_assoc]
  have hring : Ring (listAddBefore s.links h p) h (c.pages ++ [p]) := by
    have hadd := @ring_listAddBefore α _ s.links h p c.pages []
    rw [List.append_nil] at hadd
    exact hadd hs.ring hp
  have hrest : (clockMapSwappable s h p).Refines h (c.map p) ↔
      ((listAddBefore s.links h p).next s.currPtr = (c.ahead ++ [p]).headD h ∨
        (listAddBefore s.links h p).next s.currPtr = h ∧ c.behind = []) := by
    constructor
    · exact fun h => h.hand
    · intro hhand
      refine ⟨hpages ▸ hring, hhand, ?_⟩
      unfold clockMapSwappable Clock.map
      rw [hs.visited]
  have hhead : (c.ahead ++ [p]).headD h ≠ h := by
    cases hahead : c.ahead with
    | nil => exact hph
    | cons a rest =>
        intro heq
        apply hs.ring.not_mem
        have ha : a = h := heq
        unfold Clock.pages
        rw [hahead, ← ha]
        exact List.mem_append_right _ List.mem_cons_self
  rw [hrest, listAddBefore_next]
  unfold HandKept
  by_cases hcurr : s.currPtr = p
  · have hout : s.currPtr ∉ c.pages := fun hin => hp (List.mem_cons_of_mem h (hcurr ▸ hin))
    rw [if_pos hcurr]
    constructor
    · rintro (heq | ⟨-, hbehind⟩)
      · exact absurd heq.symm hhead
      · exact ⟨fun hin => hout hin.1, fun _ => hbehind⟩
    · exact fun hkept => Or.inr ⟨rfl, hkept.2 hcurr⟩
  · rw [if_neg hcurr]
    by_cases hlast : s.currPtr = s.links.prev h
    · rw [if_pos hlast]
      rw [hs.ring.prev_head] at hlast
      rcases List.eq_nil_or_concat c.pages with hempty | ⟨us, u, hpages'⟩
      · obtain ⟨-, hahead⟩ := List.append_eq_nil_iff.1 hempty
        have hhere : s.currPtr ∉ c.pages := hempty ▸ List.not_mem_nil
        exact ⟨fun _ => ⟨fun hin => hhere hin.1, fun heq => absurd heq hcurr⟩, fun _ => Or.inl (by rw [hahead]; rfl)⟩
      · rw [List.concat_eq_append] at hpages'
        rw [hpages', getLastD_concat] at hlast
        have hin : s.currPtr ∈ c.pages := by
          rw [hlast, hpages']
          exact List.mem_append_right us List.mem_cons_self
        have hnext : s.links.next s.currPtr = h := by
          have hr := hs.ring
          rw [hpages'] at hr
          rw [hlast]
          exact hr.next_mem
        constructor
        · rintro (heq | ⟨heq, -⟩)
          · cases hahead : c.ahead with
            | nil =>
                unfold Clock.pages at hin
                rw [hahead, c.canonical hahead] at hin
                exact (List.not_mem_nil hin).elim
            | cons a rest =>
                rw [hahead] at heq
                have ha : p = a := heq
                refine absurd (List.mem_cons_of_mem h ?_) hp
                unfold Clock.pages
                rw [hahead, ha]
                exact List.mem_append_right _ List.mem_cons_self
          · exact absurd heq hph
        · exact fun hkept => absurd ⟨hin, hnext⟩ hkept.1
    · rw [if_neg hlast]
      have hnot : ¬ (s.currPtr ∈ c.pages ∧ s.links.next s.currPtr = h) := by
        rintro ⟨hin, hnext⟩
        have hback := (hs.ring.prev_next (List.mem_cons_of_mem h hin)).1
        rw [hnext] at hback
        exact hlast hback.symm
      refine ⟨fun _ => ⟨hnot, fun heq => absurd heq hcurr⟩, fun _ => ?_⟩
      rcases hs.hand with hnext | hnext
      · cases hahead : c.ahead with
        | nil =>
            rw [hahead] at hnext
            exact Or.inr ⟨hnext, c.canonical hahead⟩
        | cons a rest =>
            rw [hahead] at hnext
            exact Or.inl hnext
      · exact Or.inr hnext

/-! ## Runs -/

/-- The operations, and a change of the flags between them. -/
inductive ClockOp (α : Type) where
  | mapSwappable (page : α)
  | touch (visited : α → Nat)
  | swapOutVictim

/-- An operation of the code, with the victim of an eviction. -/
def clockOp (head : α) (bound : Nat) (s : SwapClock α) : ClockOp α → Outcome (Option α × SwapClock α)
  | .mapSwappable page => pure (none, clockMapSwappable s head page)
  | .touch visited => pure (none, { s with visited := visited })
  | .swapOutVictim => clockSwapOutVictim head bound s 0

/-- The same operation of the algorithm. -/
def secondChanceOp (c : Clock α) : ClockOp α → Option α × Clock α
  | .mapSwappable page => (none, c.map page)
  | .touch visited => (none, c.touch visited)
  | .swapOutVictim => (c.victim, c.evict)

/-- A page is mapped that is not in the list yet, and a victim is looked for in a list that is not empty. -/
def ClockCallable (head : α) (c : Clock α) : ClockOp α → Prop
  | .mapSwappable page => page ∉ head :: c.pages
  | .touch _ => True
  | .swapOutVictim => c.pages ≠ []

/-- The operation does not move the hand from the page at which the algorithm has it. -/
def ClockKept (head : α) (t : SwapClock α × Clock α) : ClockOp α → Prop
  | .mapSwappable page => HandKept head t.1 t.2 page
  | .touch _ => True
  | .swapOutVictim => True

/-- The code and the algorithm side by side. -/
def ClockStep (head : α) (t : SwapClock α × Clock α) (op : ClockOp α) (t' : SwapClock α × Clock α) : Prop :=
  ClockCallable head t.2 op ∧ t'.2 = (secondChanceOp t.2 op).2 ∧
    ∃ victim, Returns (fun bound => clockOp head bound t.1 op) (victim, t'.1)

theorem clockOp_spec (hs : s.Refines h c) (op : ClockOp α) (hcall : ClockCallable h c op) :
    ∃ s', Returns (fun bound => clockOp h bound s op) ((secondChanceOp c op).1, s') ∧
      (s'.Refines h (secondChanceOp c op).2 ↔ ClockKept h (s, c) op) ∧
      s.Steps (h :: c.pages) (2 * (c.pages.length + 1)) s' := by
  have hstay : ∀ s', s'.reached = s.reached → s.Steps (h :: c.pages) (2 * (c.pages.length + 1)) s' :=
    fun s' heq => ⟨[], heq, fun x hx => (List.not_mem_nil hx).elim, Nat.zero_le _⟩
  cases op with
  | mapSwappable page =>
      exact ⟨_, ⟨0, fun _ _ => rfl⟩, clockMapSwappable_spec hs hcall, hstay _ rfl⟩
  | touch visited =>
      refine ⟨{ s with visited := visited }, ⟨0, fun _ _ => rfl⟩, ⟨fun _ => trivial, fun _ => ?_⟩, hstay _ rfl⟩
      exact ⟨hs.ring, hs.hand, rfl⟩
  | swapOutVictim =>
      obtain ⟨v, s', hvictim, hrefines, hsteps, hreturns⟩ := clockVictimLoop_spec hs hcall
      refine ⟨s', ?_, ⟨fun _ => trivial, fun _ => hrefines⟩, hsteps⟩
      have hsame : (secondChanceOp c .swapOutVictim).1 = some v := hvictim
      rw [hsame]
      exact hreturns

theorem clockInitMm_refines (m : Links α) (visited : α → Nat) (head : α) :
    (clockInitMm m visited head).Refines head (Clock.empty visited) :=
  ⟨ring_listInit m head, Or.inl (ring_listInit m head).next_head, rfl⟩

/-- In a run in which the hand is kept at every mapping, the code does what the second-chance algorithm does, in every
state: the next operation returns the victim of the algorithm, it leaves the list, the flags and the hand as the
algorithm does if and only if it keeps the hand, and it ends within two rounds of the list, every step of `curr_ptr`
in them leading to a node of the list. -/
theorem clock_second_chance {visited : α → Nat} {ops : List (ClockOp α)} {t : SwapClock α × Clock α}
    (hrun : Run (Guarded (ClockKept h) (ClockStep h)) (clockInitMm m visited h, Clock.empty visited) ops t) :
    t.1.Refines h t.2 ∧ ∀ op, ClockCallable h t.2 op →
      ∃ s', Returns (fun bound => clockOp h bound t.1 op) ((secondChanceOp t.2 op).1, s') ∧
        (s'.Refines h (secondChanceOp t.2 op).2 ↔ ClockKept h t op) ∧
        t.1.Steps (h :: t.2.pages) (2 * (t.2.pages.length + 1)) s' := by
  have hrefines : t.1.Refines h t.2 := by
    apply hrun.invariant (fun t => t.1.Refines h t.2) ?_ (clockInitMm_refines m visited h)
    rintro t op t' hs ⟨hkept, hcall, halg, victim, hreturns⟩
    obtain ⟨s', hreturns', hiff, -⟩ := clockOp_spec hs op hcall
    have hsame := hreturns.unique hreturns'
    rw [halg, (Prod.mk.inj hsame).2]
    exact hiff.2 hkept
  exact ⟨hrefines, fun op hcall => clockOp_spec hrefines op hcall⟩

/-! ## Three pages -/

/-- A new page, on both sides. -/
def mapBoth (t : SwapClock Nat × Clock Nat) (page : Nat) : SwapClock Nat × Clock Nat :=
  (clockMapSwappable t.1 0 page, t.2.map page)

/-- Other flags, on both sides. -/
def touchBoth (t : SwapClock Nat × Clock Nat) (visited : Nat → Nat) : SwapClock Nat × Clock Nat :=
  ({ t.1 with visited := visited }, t.2.touch visited)

theorem clockStep_mapBoth {t : SwapClock Nat × Clock Nat} {page : Nat} (hcall : page ∉ 0 :: t.2.pages) :
    ClockStep 0 t (.mapSwappable page) (mapBoth t page) :=
  ⟨hcall, rfl, none, 0, fun _ _ => rfl⟩

theorem clockStep_touchBoth (t : SwapClock Nat × Clock Nat) (visited : Nat → Nat) :
    ClockStep 0 t (.touch visited) (touchBoth t visited) :=
  ⟨trivial, rfl, none, 0, fun _ _ => rfl⟩

/-- Before the first eviction the hand is at the head of the list. -/
theorem clockKept_head {t : SwapClock Nat × Clock Nat} {page : Nat} (hcurr : t.1.currPtr = 0) (hpages : 0 ∉ t.2.pages)
    (hpage : page ≠ 0) : ClockKept 0 t (.mapSwappable page) :=
  ⟨fun hin => hpages (hcurr ▸ hin.1), fun heq => absurd (heq.symm.trans hcurr) hpage⟩

/-- An empty list. -/
def noPages : SwapClock Nat × Clock Nat :=
  (clockInitMm ⟨id, id⟩ (fun _ => 0) 0, Clock.empty fun _ => 0)

/-- Three pages in the list, the first of them visited. -/
def threePages : SwapClock Nat × Clock Nat :=
  touchBoth (mapBoth (mapBoth (mapBoth noPages 1) 2) 3) fun page => if page = 1 then 1 else 0

/-- The second page has been evicted. -/
def twoPages : SwapClock Nat × Clock Nat :=
  ({ links := listDel threePages.1.links 2
     currPtr := 2
     visited := Function.update threePages.1.visited 1 0
     reached := [2, 1] },
    threePages.2.evict)

theorem twoPages_run : ∃ ops, Run (Guarded (ClockKept 0) (ClockStep 0)) noPages ops twoPages := by
  have hnone : Run (Guarded (ClockKept 0) (ClockStep 0)) noPages [] noPages := Run.nil
  have hone := hnone.snoc
    (And.intro (@clockKept_head noPages 1 rfl (by decide) (by decide)) (@clockStep_mapBoth noPages 1 (by decide)))
  have htwo := hone.snoc
    (And.intro (clockKept_head rfl (by decide) (by decide)) (@clockStep_mapBoth (mapBoth noPages 1) 2 (by decide)))
  have hthree := htwo.snoc (And.intro (clockKept_head rfl (by decide) (by decide))
    (@clockStep_mapBoth (mapBoth (mapBoth noPages 1) 2) 3 (by decide)))
  have htouch : Guarded (ClockKept 0) (ClockStep 0) (mapBoth (mapBoth (mapBoth noPages 1) 2) 3)
      (.touch fun page => if page = 1 then 1 else 0) threePages :=
    ⟨trivial, clockStep_touchBoth _ _⟩
  have hvictim : Guarded (ClockKept 0) (ClockStep 0) threePages .swapOutVictim twoPages := by
    refine ⟨trivial, ?_, rfl, some 2, 3, fun bound hbound => ?_⟩
    · unfold ClockCallable
      decide
    · obtain ⟨n, rfl⟩ := Nat.exists_eq_add_of_le' hbound
      rfl
  exact ⟨_, (hthree.snoc htouch).snoc hvictim⟩

theorem clock_second_chance_twoPages :
    twoPages.1.Refines 0 twoPages.2 ∧ ∀ op, ClockCallable 0 twoPages.2 op →
      ∃ s', Returns (fun bound => clockOp 0 bound twoPages.1 op) ((secondChanceOp twoPages.2 op).1, s') ∧
        (s'.Refines 0 (secondChanceOp twoPages.2 op).2 ↔ ClockKept 0 twoPages op) ∧
        twoPages.1.Steps (0 :: twoPages.2.pages) (2 * (twoPages.2.pages.length + 1)) s' := by
  obtain ⟨ops, hrun⟩ := twoPages_run
  exact clock_second_chance hrun

/-- The evicted page is mapped again, and all flags are cleared. The page that followed it is next, but the code
looks at the first page of the list. -/
theorem clock_hand_moves :
    ¬ ∀ ops t, Run (ClockStep 0) noPages ops t → ∀ victim s',
      Returns (fun bound => clockOp 0 bound t.1 .swapOutVictim) (victim, s') →
      victim = (secondChanceOp t.2 .swapOutVictim).1 := by
  intro hclaim
  obtain ⟨ops, hrun⟩ := twoPages_run
  have hagain := (hrun.mono fun _ _ _ hstep => hstep.2).snoc (@clockStep_mapBoth twoPages 2 (by decide))
  have htouch := hagain.snoc (clockStep_touchBoth (mapBoth twoPages 2) fun _ => 0)
  have hreturns : Returns (fun bound => clockOp 0 bound (touchBoth (mapBoth twoPages 2) fun _ => 0).1 .swapOutVictim)
      (some 1, { touchBoth (mapBoth twoPages 2) (fun _ => 0) |>.1 with
        links := listDel (mapBoth twoPages 2).1.links 1
        currPtr := 1
        reached := [1, 0, 2, 1] }) := by
    refine ⟨2, fun bound hbound => ?_⟩
    obtain ⟨n, rfl⟩ := Nat.exists_eq_add_of_le' hbound
    rfl
  have hvictim : (secondChanceOp (touchBoth (mapBoth twoPages 2) fun _ => 0).2 .swapOutVictim).1 = some 3 := by decide
  have hsame := hclaim _ _ htouch (some 1) _ hreturns
  rw [hvictim] at hsame
  exact absurd hsame (by decide)

end TriOS
