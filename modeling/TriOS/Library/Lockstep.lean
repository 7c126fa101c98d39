import Mathlib

/-!
# Lockstep — one piece of code on two kinds of state

Code that only hands what it does to an operation on its state runs alike on any two states with such an operation.
`Lockstep R f g` says that from states related by `R` the two pieces of code stop with the same error, or return the
same result in states that are related again.
-/

namespace Lockstep

variable {ε σ τ α β : Type}

/-- The two results are alike. -/
inductive Alike (R : σ → τ → Prop) : Except ε (α × σ) → Except ε (α × τ) → Prop where
  | ok {a : α} {s : σ} {t : τ} (h : R s t) : Alike R (Except.ok (a, s)) (Except.ok (a, t))
  | error (e : ε) : Alike R (Except.error e) (Except.error e)

end Lockstep

/-- From related states the code `f` and the code `g` do the same. -/
def Lockstep {ε σ τ α : Type} (R : σ → τ → Prop) (f : StateT σ (Except ε) α) (g : StateT τ (Except ε) α) : Prop :=
  ∀ s t, R s t → Lockstep.Alike R (f s) (g t)

namespace Lockstep

variable {ε σ τ α β : Type} {R : σ → τ → Prop} {f : StateT σ (Except ε) α} {g : StateT τ (Except ε) α}
  {f' : α → StateT σ (Except ε) β} {g' : α → StateT τ (Except ε) β}

theorem of_pure (a : α) : Lockstep R (pure a : StateT σ (Except ε) α) (pure a) := fun _ _ h => Alike.ok h

theorem of_throw (e : ε) : Lockstep R (throw e : StateT σ (Except ε) α) (throw e) := fun _ _ _ => Alike.error e

theorem of_modify {p : σ → σ} {q : τ → τ} (hpq : ∀ s t, R s t → R (p s) (q t)) :
    Lockstep R (modify p : StateT σ (Except ε) PUnit) (modify q) :=
  fun s t h => Alike.ok (hpq s t h)

theorem bind (hf : Lockstep R f g) (hg : ∀ a, Lockstep R (f' a) (g' a)) : Lockstep R (f >>= f') (g >>= g') := by
  intro s t h
  change Alike R ((f s).bind fun x => f' x.1 x.2) ((g t).bind fun x => g' x.1 x.2)
  generalize hx : f s = x
  generalize hy : g t = y
  have halike := hf s t h
  rw [hx, hy] at halike
  cases halike with
  | ok hrel => exact hg _ _ _ hrel
  | error e => exact Alike.error e

theorem ite {p : Prop} [Decidable p] {k : StateT σ (Except ε) α} {l : StateT τ (Except ε) α}
    (hp : p → Lockstep R f g) (hn : ¬ p → Lockstep R k l) :
    Lockstep R (if p then f else k) (if p then g else l) := by
  split
  · exact hp ‹_›
  · exact hn ‹_›

end Lockstep
