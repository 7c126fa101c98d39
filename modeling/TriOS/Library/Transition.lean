import Mathlib
import TriOS.Library.Outcome

/-!
# Transition — runs of a labelled step relation

A system is a relation `step s i t`: in state `s` the action `i` may lead to `t`. `Run` lists the
actions of a finite run in order. The invariant rule `Run.invariant` packages the induction that
every safety proof makes, and `Run.mono` transfers a run along a map of its steps.
-/

namespace Transition

universe u

variable {σ τ : Type u} {ι : Type*}

/-- Finite runs, with their actions in the order in which they were taken. -/
inductive Run (step : σ → ι → σ → Prop) (s : σ) : List ι → σ → Prop where
  | nil : Run step s [] s
  | snoc {as : List ι} {a : ι} {t u : σ} : Run step s as t → step t a u → Run step s (as ++ [a]) u

/-- The step relation of an operation that is a function of the state and the action. -/
def StepOf (f : σ → ι → Outcome σ) (s : σ) (a : ι) (t : σ) : Prop :=
  f s a = Outcome.done t

/-- The steps of a system that meet a condition on the state before the step and the action. -/
def Guarded (ok : σ → ι → Prop) (step : σ → ι → σ → Prop) (s : σ) (a : ι) (t : σ) : Prop :=
  ok s a ∧ step s a t

/-- Execution of a list of actions. -/
def exec (f : σ → ι → Outcome σ) (s : σ) : List ι → Outcome σ
  | [] => Outcome.done s
  | a :: as => f s a >>= fun t => exec f t as

variable {step : σ → ι → σ → Prop} {s t u : σ} {as bs : List ι} {a : ι}

/-- A property that holds at the start and is kept by every step holds at the end of every run. -/
theorem Run.invariant (I : σ → Prop) (hstep : ∀ t a u, I t → step t a u → I u)
    (h : Run step s as t) (h0 : I s) : I t := by
  induction h with
  | nil => exact h0
  | snoc _ hs ih => exact hstep _ _ _ ih hs

/-- The same for a property of the state and of the actions that led to it. -/
theorem Run.trace_invariant (I : List ι → σ → Prop)
    (hstep : ∀ as t a u, I as t → step t a u → I (as ++ [a]) u) (h : Run step s as t)
    (h0 : I [] s) : I as t := by
  induction h with
  | nil => exact h0
  | snoc _ hs ih => exact hstep _ _ _ _ ih hs

/-- Runs are monotone in the step relation. -/
theorem Run.mono {step' : σ → ι → σ → Prop} (hsub : ∀ t a u, step t a u → step' t a u)
    (h : Run step s as t) : Run step' s as t := by
  induction h with
  | nil => exact Run.nil
  | snoc _ hs ih => exact Run.snoc ih (hsub _ _ _ hs)

theorem Run.trans (h : Run step s as t) (h' : Run step t bs u) : Run step s (as ++ bs) u := by
  induction h' with
  | nil => simpa using h
  | snoc _ hs ih =>
      rw [← List.append_assoc]
      exact Run.snoc ih hs

theorem Run.cons (hs : step s a t) (h : Run step t as u) : Run step s (a :: as) u := by
  have h1 : Run step s ([] ++ [a]) t := Run.snoc Run.nil hs
  simpa using h1.trans h

/-- The last step of a run. -/
theorem Run.of_snoc (h : Run step s (as ++ [a]) t) : ∃ u, Run step s as u ∧ step u a t := by
  generalize hx : as ++ [a] = xs at h
  cases h with
  | nil => simp at hx
  | snoc h hs =>
      rcases List.append_inj' hx rfl with ⟨rfl, ha⟩
      cases ha
      exact ⟨_, h, hs⟩

/-- A run can be cut anywhere. -/
theorem Run.of_append (h : Run step s (as ++ bs) t) : ∃ u, Run step s as u ∧ Run step u bs t := by
  induction bs using List.reverseRecOn generalizing t with
  | nil => exact ⟨t, by simpa using h, Run.nil⟩
  | append_singleton bs b ih =>
      rw [← List.append_assoc] at h
      rcases h.of_snoc with ⟨v, hv, hs⟩
      rcases ih hv with ⟨u, h1, h2⟩
      exact ⟨u, h1, Run.snoc h2 hs⟩

/-- The first step of a run. -/
theorem Run.of_cons (h : Run step s (a :: as) t) : ∃ u, step s a u ∧ Run step u as t := by
  have h' : Run step s ([a] ++ as) t := h
  rcases h'.of_append with ⟨u, hone, hrest⟩
  have hone' : Run step s ([] ++ [a]) u := hone
  rcases hone'.of_snoc with ⟨v, hnil, hs⟩
  have hv : v = s := by
    generalize hx : ([] : List ι) = xs at hnil
    cases hnil with
    | nil => rfl
    | snoc _ _ => simp at hx
  exact ⟨u, hv ▸ hs, hrest⟩

/-- An execution is a run. -/
theorem run_of_exec {f : σ → ι → Outcome σ} :
    ∀ {as : List ι} {s t : σ}, exec f s as = Outcome.done t → Run (StepOf f) s as t
  | [], s, t, h => by
      cases h
      exact Run.nil
  | a :: as, s, t, h => by
      obtain ⟨m, hm, hrest⟩ := Outcome.bind_eq_done.mp h
      exact Run.cons hm (run_of_exec hrest)

/-- A forward simulation carries runs over: every step is matched by one step of the same label. -/
theorem Run.simulation {step' : τ → ι → τ → Prop} (R : σ → τ → Prop)
    (hsim : ∀ t a u t', R t t' → step t a u → ∃ u', step' t' a u' ∧ R u u')
    (h : Run step s as t) {s' : τ} (h0 : R s s') : ∃ t', Run step' s' as t' ∧ R t t' := by
  induction h with
  | nil => exact ⟨s', Run.nil, h0⟩
  | snoc _ hs ih =>
      obtain ⟨t', hrun, hR⟩ := ih
      obtain ⟨u', hs', hR'⟩ := hsim _ _ _ _ hR hs
      exact ⟨u', Run.snoc hrun hs', hR'⟩

end Transition
