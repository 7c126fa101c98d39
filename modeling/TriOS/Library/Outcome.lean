import Mathlib

/-!
# Outcome — results of code that may stop the machine

A function of a C program that is embedded here ends in one of four ways:

* it returns a value (`done`);
* an assertion fails or the program stops itself (`panic`);
* an operation leaves the range of its type, or has no defined result (`wrap`);
* the bound that was given to one of its loops is used up (`fuel`).

The last three are kept apart so that a statement can say which of them is excluded.
-/

universe u

/-- The result of running a piece of code. -/
inductive Outcome (α : Type u) where
  | done (a : α)
  | panic
  | wrap
  | fuel
  deriving DecidableEq, Repr

namespace Outcome

variable {α β : Type u}

/-- Sequencing: anything but a returned value stops the computation. -/
protected def bind (x : Outcome α) (f : α → Outcome β) : Outcome β :=
  match x with
  | done a => f a
  | panic => panic
  | wrap => wrap
  | fuel => fuel

instance : Monad Outcome where
  pure := done
  bind := Outcome.bind

/-- `assert p` returns when `p` holds and stops the machine when it does not. -/
def assert (p : Prop) [Decidable p] : Outcome Unit :=
  if p then done () else panic

/-- Subtraction of unsigned numbers that reports a wrap instead of wrapping. -/
def sub (a b : Nat) : Outcome Nat :=
  if b ≤ a then done (a - b) else wrap

/-- Addition of unsigned `w`-bit numbers that reports a wrap instead of wrapping. -/
def add (w a b : Nat) : Outcome Nat :=
  if a + b < 2 ^ w then done (a + b) else wrap

@[simp] theorem pure_eq_done (a : α) : (pure a : Outcome α) = done a := rfl

@[simp] theorem bind_done (a : α) (f : α → Outcome β) : (done a >>= f) = f a := rfl

@[simp] theorem bind_panic (f : α → Outcome β) : ((panic : Outcome α) >>= f) = panic := rfl

@[simp] theorem bind_wrap (f : α → Outcome β) : ((wrap : Outcome α) >>= f) = wrap := rfl

@[simp] theorem bind_fuel (f : α → Outcome β) : ((fuel : Outcome α) >>= f) = fuel := rfl

theorem bind_eq_done {x : Outcome α} {f : α → Outcome β} {b : β} :
    (x >>= f) = done b ↔ ∃ a, x = done a ∧ f a = done b := by
  cases x with
  | done a => simp
  | panic => simp
  | wrap => simp
  | fuel => simp

theorem assert_eq_done {p : Prop} [Decidable p] {u : Unit} : assert p = done u ↔ p := by
  unfold assert
  by_cases h : p <;> simp [h]

@[simp] theorem assert_of {p : Prop} [Decidable p] (h : p) : assert p = done () := by
  simp [assert, h]

@[simp] theorem assert_of_not {p : Prop} [Decidable p] (h : ¬ p) : assert p = panic := by
  simp [assert, h]

theorem sub_eq_done {a b c : Nat} : sub a b = done c ↔ b ≤ a ∧ c = a - b := by
  unfold sub
  by_cases h : b ≤ a <;> simp [h, eq_comm]

@[simp] theorem sub_of_le {a b : Nat} (h : b ≤ a) : sub a b = done (a - b) := by
  simp [sub, h]

@[simp] theorem add_of_lt {w a b : Nat} (h : a + b < 2 ^ w) : add w a b = done (a + b) := by
  simp [add, h]

/-! ## Code that does nothing undefined -/

/-- `x` stops the machine itself or returns a value with the property `P`. -/
def Safe (x : Outcome α) (P : α → Prop) : Prop :=
  match x with
  | done a => P a
  | panic => True
  | wrap => False
  | fuel => False

section Safe

variable {x : Outcome α} {P Q : α → Prop} {R : β → Prop} {k : α → Outcome β} {a : α} {p : Prop}

@[simp] theorem safe_done : Safe (done a) P ↔ P a := Iff.rfl

@[simp] theorem safe_pure : Safe (pure a) P ↔ P a := Iff.rfl

@[simp] theorem safe_panic : Safe (panic : Outcome α) P := trivial

theorem Safe.mono (h : Safe x P) (hPQ : ∀ a, P a → Q a) : Safe x Q := by
  cases x with
  | done a => exact hPQ a h
  | panic => trivial
  | wrap => exact h
  | fuel => exact h

/-- The rule of sequencing. -/
theorem Safe.bind (h : Safe x P) (hk : ∀ a, P a → Safe (k a) R) : Safe (x >>= k) R := by
  cases x with
  | done a => exact hk a h
  | panic => trivial
  | wrap => exact h
  | fuel => exact h

/-- The rule of assertions. -/
theorem Safe.assert_bind {γ : Type} {R : γ → Prop} {k : Unit → Outcome γ} [Decidable p]
    (hk : p → Safe (k ()) R) : Safe (assert p >>= k) R := by
  by_cases hp : p
  · simpa [assert_of hp] using hk hp
  · simp [assert_of_not hp]

theorem Safe.of_eq (hx : x = done a) (h : P a) : Safe x P := by
  rw [hx]
  exact h

theorem Safe.of_done (h : Safe x P) (hx : x = done a) : P a := by
  rw [hx] at h
  exact h

theorem Safe.ne_wrap (h : Safe x P) : x ≠ wrap := by
  intro hx
  rw [hx] at h
  exact h

theorem Safe.ne_fuel (h : Safe x P) : x ≠ fuel := by
  intro hx
  rw [hx] at h
  exact h

end Safe

/-! ## Code with loops -/

/-- `f` takes a bound on its loops; with every large enough bound it returns `a`. -/
def Returns (f : Nat → Outcome α) (a : α) : Prop :=
  ∃ bound, ∀ fuel, bound ≤ fuel → f fuel = done a

variable {f : Nat → Outcome α} {a a' : α}

theorem Returns.unique (h : Returns f a) (h' : Returns f a') : a = a' := by
  rcases h with ⟨N, hN⟩
  rcases h' with ⟨N', hN'⟩
  have h1 := hN (max N N') (le_max_left _ _)
  have h2 := hN' (max N N') (le_max_right _ _)
  rw [h1] at h2
  exact done.inj h2

/-- What a returning loop does for large bounds can be read off at one of them. -/
theorem Returns.exists_eq (h : Returns f a) (bound : Nat) :
    ∃ fuel, bound ≤ fuel ∧ f fuel = done a := by
  rcases h with ⟨N, hN⟩
  exact ⟨max bound N, le_max_left _ _, hN _ (le_max_right _ _)⟩

end Outcome
