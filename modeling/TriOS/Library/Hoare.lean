import Mathlib

/-!
# Hoare — code with a state that may stop with an error

`Triple E f s Q` says of a piece of code `f` that is started in the state `s`: when it returns, the result and
the new state satisfy `Q`, and when it stops, then with an error of `E`. The start is a state and not an
assertion, so that `Q` may speak of it. The rules for the constructors of `StateT` and `Except` are equivalences
and execute straight-line code by rewriting; what has a name of its own is cited with `Triple.bind`.
-/

namespace Hoare

variable {ε σ τ α β : Type}

/-- The code `f` returns from `s` with `Q`, or stops with an error of `E`. -/
def Triple (E : ε → Prop) (f : StateT σ (Except ε) α) (s : σ) (Q : α → σ → Prop) : Prop :=
  match f s with
  | Except.ok (a, t) => Q a t
  | Except.error e => E e

/-- Every error. -/
def AnyError (_ : ε) : Prop := True

variable {E E' : ε → Prop} {f : StateT σ (Except ε) α} {g : α → StateT σ (Except ε) β} {s t : σ} {a : α} {e : ε}
  {Q Q' : α → σ → Prop} {R : β → σ → Prop}

/-! ## Straight-line code -/

@[simp] theorem triple_pure : Triple E (pure a) s Q ↔ Q a s := Iff.rfl

@[simp] theorem triple_get {Q : σ → σ → Prop} : Triple E get s Q ↔ Q s s := Iff.rfl

@[simp] theorem triple_set {Q : PUnit → σ → Prop} : Triple E (set t) s Q ↔ Q ⟨⟩ t := Iff.rfl

@[simp] theorem triple_modify {h : σ → σ} {Q : PUnit → σ → Prop} : Triple E (modify h) s Q ↔ Q ⟨⟩ (h s) := Iff.rfl

@[simp] theorem triple_throw : Triple E (throw e) s Q ↔ E e := Iff.rfl

theorem triple_bind : Triple E (f >>= g) s R ↔ Triple E f s fun a t => Triple E (g a) t R := by
  change (match (f s).bind fun x => g x.1 x.2 with
    | Except.ok (a, t) => R a t
    | Except.error e => E e) ↔ _
  unfold Triple
  cases f s with
  | error e => exact Iff.rfl
  | ok x => exact Iff.rfl

theorem triple_map {h : α → β} : Triple E (h <$> f) s R ↔ Triple E f s fun a t => R (h a) t := by
  change Triple E (f >>= fun a => pure (h a)) s R ↔ _
  rw [triple_bind]
  exact Iff.rfl

/-! ## Consequence and composition -/

theorem Triple.mono (h : Triple E f s Q) (hQ : ∀ a t, Q a t → Q' a t) : Triple E f s Q' := by
  unfold Triple at h ⊢
  cases hf : f s with
  | error e =>
      rw [hf] at h
      exact h
  | ok x =>
      rw [hf] at h
      exact hQ x.1 x.2 h

theorem Triple.mono_error (h : Triple E f s Q) (hE : ∀ e, E e → E' e) : Triple E' f s Q := by
  unfold Triple at h ⊢
  cases hf : f s with
  | error e =>
      rw [hf] at h
      exact hE e h
  | ok x =>
      rw [hf] at h
      exact h

theorem Triple.bind (h : Triple E f s Q) (hg : ∀ a t, Q a t → Triple E (g a) t R) : Triple E (f >>= g) s R :=
  triple_bind.2 (h.mono hg)

theorem Triple.and (h : Triple E f s Q) (h' : Triple E f s Q') : Triple E f s fun a t => Q a t ∧ Q' a t := by
  unfold Triple at h h' ⊢
  cases hf : f s with
  | error e =>
      rw [hf] at h
      exact h
  | ok x =>
      rw [hf] at h h'
      exact ⟨h, h'⟩

/-- Nothing is said of the code. -/
theorem triple_anyError : Triple AnyError f s fun _ _ => True := by
  unfold Triple
  cases f s with
  | error e => exact trivial
  | ok x => exact trivial

/-- What is known of the results only is known of them, too, where the errors are known. -/
theorem Triple.and_results (h : Triple E f s Q) (h' : Triple AnyError f s Q') : Triple E f s fun a t => Q a t ∧ Q' a t := by
  unfold Triple at h h' ⊢
  cases hf : f s with
  | error e =>
      rw [hf] at h
      exact h
  | ok x =>
      rw [hf] at h h'
      exact ⟨h, h'⟩

theorem triple_ite {p : Prop} [Decidable p] {f' : StateT σ (Except ε) α} (h : p → Triple E f s Q)
    (h' : ¬ p → Triple E f' s Q) : Triple E (if p then f else f') s Q := by
  split
  · exact h ‹_›
  · exact h' ‹_›

/-- What a triple says of an execution that returns. -/
theorem Triple.of_ok (h : Triple E f s Q) (hf : f s = Except.ok (a, t)) : Q a t := by
  unfold Triple at h
  rw [hf] at h
  exact h

/-- What a triple says of an execution that stops. -/
theorem Triple.of_error (h : Triple E f s Q) (hf : f s = Except.error e) : E e := by
  unfold Triple at h
  rw [hf] at h
  exact h

/-! ## Invariants -/

/-- The code leaves the property `I` of the state as it is. -/
def Keeps (E : ε → Prop) (I : σ → Prop) (f : StateT σ (Except ε) α) : Prop :=
  ∀ s, I s → Triple E f s fun _ t => I t

variable {I : σ → Prop}

theorem Keeps.pure (a : α) : Keeps E I (pure a : StateT σ (Except ε) α) := fun _ h => h

theorem Keeps.throw (he : E e) : Keeps E I (throw e : StateT σ (Except ε) α) := fun _ _ => he

theorem Keeps.get : Keeps E I (get : StateT σ (Except ε) σ) := fun _ h => h

theorem Keeps.modify {h : σ → σ} (hh : ∀ s, I s → I (h s)) : Keeps E I (modify h : StateT σ (Except ε) PUnit) :=
  fun s hs => hh s hs

theorem Keeps.bind (hf : Keeps E I f) (hg : ∀ a, Keeps E I (g a)) : Keeps E I (f >>= g) :=
  fun s hs => (hf s hs).bind fun a t ht => hg a t ht

theorem Keeps.ite {p : Prop} [Decidable p] {f' : StateT σ (Except ε) α} (h : Keeps E I f) (h' : Keeps E I f') :
    Keeps E I (if p then f else f') :=
  fun s hs => triple_ite (fun _ => h s hs) fun _ => h' s hs

theorem Keeps.dite {p : Prop} [Decidable p] {h : p → StateT σ (Except ε) α} {h' : ¬ p → StateT σ (Except ε) α}
    (hp : ∀ x, Keeps E I (h x)) (hn : ∀ x, Keeps E I (h' x)) : Keeps E I (if x : p then h x else h' x) := by
  split
  · exact hp _
  · exact hn _

/-! ## A part of the state -/

/-- Code on a part of the state, as code on the state. -/
def zoom {ε' : Type} (part : σ → τ) (put : σ → τ → σ) (err : ε' → ε) (f : StateT τ (Except ε') α) :
    StateT σ (Except ε) α := fun s =>
  match f (part s) with
  | Except.ok (a, t) => Except.ok (a, put s t)
  | Except.error e => Except.error (err e)

theorem triple_zoom {ε' : Type} {part : σ → τ} {put : σ → τ → σ} {err : ε' → ε} {f : StateT τ (Except ε') α} :
    Triple E (zoom part put err f) s Q ↔
      Triple (fun e => E (err e)) f (part s) fun a t => Q a (put s t) := by
  unfold Triple zoom
  cases f (part s) with
  | error e => exact Iff.rfl
  | ok x => exact Iff.rfl

end Hoare
