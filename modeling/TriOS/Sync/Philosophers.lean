import Mathlib

/-!
# check_sync.c — the table of the dining philosophers

Both solutions keep an array of states, and grant the forks with the same test. Here is what the
test, hunger and the end of a meal do to the array: two neighbours never eat together, and a hungry
philosopher has a neighbour that eats, or is due to be tested.
-/

namespace TriOS

/-- `THINKING`, `HUNGRY`, `EATING` -/
inductive PhiState where
  | thinking
  | hungry
  | eating
  deriving DecidableEq, Repr

variable {n : Nat}

/-- `LEFT` -/
def leftOf (i : Fin n) : Fin n :=
  ⟨(i + n - 1) % n, Nat.mod_lt _ i.pos⟩

/-- `RIGHT` -/
def rightOf (i : Fin n) : Fin n :=
  ⟨(i + 1) % n, Nat.mod_lt _ i.pos⟩

theorem leftOf_rightOf (i : Fin n) : leftOf (rightOf i) = i := by
  have hlt := i.isLt
  apply Fin.ext
  change ((i + 1) % n + n - 1) % n = i
  rcases Nat.lt_or_ge (i + 1) n with h | h
  · rw [Nat.mod_eq_of_lt h]
    have hsum : (i : Nat) + 1 + n - 1 = i + n := by omega
    rw [hsum, Nat.add_mod_right, Nat.mod_eq_of_lt hlt]
  · have hn : (i : Nat) + 1 = n := by omega
    rw [hn, Nat.mod_self, Nat.mod_eq_of_lt (by omega)]
    omega

theorem rightOf_leftOf (i : Fin n) : rightOf (leftOf i) = i := by
  have hlt := i.isLt
  apply Fin.ext
  change ((i + n - 1) % n + 1) % n = i
  rcases Nat.eq_zero_or_pos (i : Nat) with h | h
  · rw [h, Nat.mod_eq_of_lt (by omega : 0 + n - 1 < n)]
    have hn : 0 + n - 1 + 1 = n := by omega
    rw [hn, Nat.mod_self]
  · have hsum : (i : Nat) + n - 1 = i - 1 + n := by omega
    rw [hsum, Nat.add_mod_right, Nat.mod_eq_of_lt (by omega : (i : Nat) - 1 < n)]
    have hback : (i : Nat) - 1 + 1 = i := by omega
    rw [hback, Nat.mod_eq_of_lt hlt]

theorem rightOf_ne (hn : 2 ≤ n) (i : Fin n) : rightOf i ≠ i := by
  intro hc
  have hval : (i + 1) % n = (i : Nat) := congrArg Fin.val hc
  have hlt := i.isLt
  rcases Nat.lt_or_ge (i + 1) n with h | h
  · rw [Nat.mod_eq_of_lt h] at hval
    omega
  · have hlast : (i : Nat) + 1 = n := by omega
    rw [hlast, Nat.mod_self] at hval
    omega

theorem leftOf_ne (hn : 2 ≤ n) (i : Fin n) : leftOf i ≠ i := by
  intro hc
  apply rightOf_ne hn i
  calc rightOf i = rightOf (leftOf i) := by rw [hc]
    _ = i := rightOf_leftOf i

/-! ## The array of states -/

open PhiState

/-- The condition of `phi_test`: `i` is hungry, and no neighbour eats. -/
def MayEat (state : Fin n → PhiState) (i : Fin n) : Prop :=
  state i = hungry ∧ state (leftOf i) ≠ eating ∧ state (rightOf i) ≠ eating

instance (state : Fin n → PhiState) (i : Fin n) : Decidable (MayEat state i) :=
  inferInstanceAs (Decidable (_ ∧ _ ∧ _))

/-- What `phi_test` does to the array. -/
def testState (state : Fin n → PhiState) (i : Fin n) : Fin n → PhiState :=
  if MayEat state i then Function.update state i eating else state

/-- No two neighbours eat. -/
def Exclusive (state : Fin n → PhiState) : Prop :=
  ∀ i, state i = eating → state (rightOf i) ≠ eating

/-- Every hungry philosopher has a neighbour that eats, or is due to be tested. -/
def Served (state : Fin n → PhiState) (due : Fin n → Prop) : Prop :=
  ∀ i, state i = hungry → due i ∨ state (leftOf i) = eating ∨ state (rightOf i) = eating

/-- What holds of the array at all times. -/
structure PhiTable (state : Fin n → PhiState) (due : Fin n → Prop) : Prop where
  exclusive : Exclusive state
  served : Served state due

variable {state : Fin n → PhiState} {due due' : Fin n → Prop} {i k : Fin n}

theorem testState_of_mayEat (h : MayEat state i) :
    testState state i = Function.update state i eating :=
  if_pos h

theorem testState_of_not (h : ¬ MayEat state i) : testState state i = state :=
  if_neg h

/-- Only the tested philosopher changes, from hungry to eating. -/
theorem testState_of_ne (h : k ≠ i) : testState state i k = state k := by
  unfold testState
  split
  · exact Function.update_of_ne h _ _
  · rfl

theorem testState_eating (h : state k = eating) : testState state i k = eating := by
  by_cases hk : k = i
  · subst hk
    have hnot : ¬ MayEat state k := by
      intro hmay
      rw [hmay.1] at h
      cases h
    rw [testState_of_not hnot, h]
  · rw [testState_of_ne hk, h]

theorem PhiTable.mono (h : PhiTable state due) (hdue : ∀ k, due k → due' k) : PhiTable state due' :=
  ⟨h.exclusive, fun i hi => (h.served i hi).imp_left (hdue i)⟩

/-- A philosopher that does not eat yet becomes hungry, and has to be tested. -/
theorem PhiTable.request (h : PhiTable state due) (hi : state i ≠ eating) :
    PhiTable (Function.update state i hungry) fun k => k = i ∨ due k := by
  have heats : ∀ j, Function.update state i hungry j = eating ↔ state j = eating := by
    intro j
    by_cases hj : j = i
    · subst hj
      simp [hi]
    · rw [Function.update_of_ne hj]
  refine ⟨?_, ?_⟩
  · intro j hj
    rw [heats] at hj
    intro hc
    rw [heats] at hc
    exact h.exclusive j hj hc
  · intro j hj
    by_cases hji : j = i
    · exact Or.inl (Or.inl hji)
    · rw [Function.update_of_ne hji] at hj
      rw [heats, heats]
      exact (h.served j hj).imp_left Or.inr

/-- At the end of a meal both neighbours have to be tested. -/
theorem PhiTable.release (h : PhiTable state due) (i : Fin n) :
    PhiTable (Function.update state i thinking) fun k => k = leftOf i ∨ k = rightOf i ∨ due k := by
  have heats : ∀ j, Function.update state i thinking j = eating → state j = eating := by
    intro j hj
    by_cases hji : j = i
    · subst hji
      rw [Function.update_self] at hj
      cases hj
    · rwa [Function.update_of_ne hji] at hj
  refine ⟨fun j hj hc => h.exclusive j (heats j hj) (heats _ hc), ?_⟩
  intro j hj
  have hji : j ≠ i := by
    rintro rfl
    rw [Function.update_self] at hj
    cases hj
  rw [Function.update_of_ne hji] at hj
  rcases h.served j hj with hdue | hleft | hright
  · exact Or.inl (Or.inr (Or.inr hdue))
  · by_cases hl : leftOf j = i
    · left
      right
      left
      rw [← hl, rightOf_leftOf]
    · right
      left
      rw [Function.update_of_ne hl, hleft]
  · by_cases hr : rightOf j = i
    · left
      left
      rw [← hr, leftOf_rightOf]
    · right
      right
      rw [Function.update_of_ne hr, hright]

/-- A test grants the forks if they are free. After it the philosopher is not due any more. -/
theorem PhiTable.test (hn : 2 ≤ n) (h : PhiTable state due) (hdue : ∀ k, due k → k = i ∨ due' k) :
    PhiTable (testState state i) due' := by
  by_cases hmay : MayEat state i
  · refine ⟨?_, ?_⟩
    · intro j hj hc
      rw [testState_of_mayEat hmay] at hj hc
      by_cases hji : j = i
      · subst hji
        rw [Function.update_of_ne (rightOf_ne hn j)] at hc
        exact hmay.2.2 hc
      · rw [Function.update_of_ne hji] at hj
        by_cases hri : rightOf j = i
        · apply hmay.2.1
          rw [← hri, leftOf_rightOf]
          exact hj
        · rw [Function.update_of_ne hri] at hc
          exact h.exclusive j hj hc
    · intro j hj
      have hji : j ≠ i := by
        rintro rfl
        rw [testState_of_mayEat hmay, Function.update_self] at hj
        cases hj
      rw [testState_of_ne hji] at hj
      rcases h.served j hj with hd | hleft | hright
      · exact Or.inl ((hdue j hd).resolve_left hji)
      · exact Or.inr (Or.inl (testState_eating hleft))
      · exact Or.inr (Or.inr (testState_eating hright))
  · rw [testState_of_not hmay]
    refine ⟨h.exclusive, fun j hj => ?_⟩
    rcases h.served j hj with hd | heat
    · rcases hdue j hd with rfl | hd'
      · -- The test failed, so a neighbour eats.
        right
        by_contra hnone
        rw [not_or] at hnone
        exact hmay ⟨hj, hnone⟩
      · exact Or.inl hd'
    · exact Or.inr heat

/-! ## Program points -/

/-- The next call of a philosopher, or the one whose `down` it is in the middle of. Between `put` and
the return of `phi_take_forks` it eats. -/
inductive PhiPoint where
  /-- The head of the loop, and the time of thinking. -/
  | loop
  /-- `down(&mutex)` in `phi_take_forks`. -/
  | take
  | takeTest
  | takeWait
  | takeLeave
  /-- `phi_take_forks` has returned; `down(&mutex)` in `phi_put_forks` is next. -/
  | put
  | putLeft
  | putRight
  | putLeave
  | quit
  deriving DecidableEq, Repr

/-- The program counter of a philosopher, and the variable `iter`. -/
structure Philosopher where
  point : PhiPoint
  iter : Nat

/-- The processes `philosopher_proc`. -/
structure Seats (n : Nat) where
  proc : Fin n → Nat
  inj : Function.Injective proc

/-- The actions of a run: a philosopher goes on, or goes on in the middle of `down`; the processor is
given to a process, a process is killed, and all else that the machine does. -/
inductive PhiOp (n : Nat) where
  | act (i : Fin n)
  | resume (i : Fin n)
  | switch (p : Nat)
  | kill (p : Nat)
  | other

/-- The philosophers that the active one still has to test. -/
def DueAt (phil : Fin n → Philosopher) (k : Fin n) : Prop :=
  ∃ j, (phil j).point = PhiPoint.putRight ∧ k = rightOf j

variable {phil : Fin n → Philosopher} {x : Philosopher}

/-- A step of a philosopher that is not about to test its right neighbour, before and after it. -/
theorem DueAt.frame (hi : (phil i).point ≠ PhiPoint.putRight) (h : DueAt phil k) :
    DueAt (Function.update phil i x) k := by
  obtain ⟨j, hj, rfl⟩ := h
  have hji : j ≠ i := by
    rintro rfl
    exact hi hj
  exact ⟨j, by rw [Function.update_of_ne hji]; exact hj, rfl⟩

/-- The philosopher that tests its right neighbour has done so. -/
theorem DueAt.tested (h : DueAt phil k) : k = rightOf i ∨ DueAt (Function.update phil i x) k := by
  obtain ⟨j, hj, rfl⟩ := h
  by_cases hji : j = i
  · exact Or.inl (by rw [hji])
  · exact Or.inr ⟨j, by rw [Function.update_of_ne hji]; exact hj, rfl⟩

/-- What both solutions guarantee: neighbours do not eat together, a philosopher eats from the return
of `phi_take_forks` to its call of `phi_put_forks`, and while somebody has not finished, somebody
that has not finished is not blocked. -/
structure Dines (state : Fin n → PhiState) (phil : Fin n → Philosopher) (blocked : Fin n → Prop) :
    Prop where
  exclusive : Exclusive state
  eats : ∀ i, (phil i).point = PhiPoint.put → state i = eating
  progress : (∃ i, (phil i).point ≠ PhiPoint.quit) →
    ∃ i, (phil i).point ≠ PhiPoint.quit ∧ ¬ blocked i

end TriOS
