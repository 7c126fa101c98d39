import TriOS.Library.Transition

/-!
# Coherence — a memory as those who use it see it

Accesses to a memory are coherent when every read returns what the last access to its place wrote or read there, or
what was known of the place before. Where a system has contents that every step keeps as it should, its runs are
coherent, however the contents are moved about inside.
-/

namespace Coherence

open Transition

variable {α β : Type} [DecidableEq α]

/-- An access to a place: a read with the value that it returned, or a write. -/
inductive Access (α β : Type) where
  | read (a : α) (x : β)
  | write (a : α) (x : β)
  deriving DecidableEq

/-- What is known of the memory after an access. -/
def Access.learn (known : α → Option β) : Access α β → α → Option β
  | read a x => Function.update known a (some x)
  | write a x => Function.update known a (some x)

/-- A read returns what is known of its place. -/
def Access.Fits (known : α → Option β) : Access α β → Prop
  | read a x => ∀ y, known a = some y → x = y
  | write _ _ => True

/-- The accesses are those to a memory, of which something is known before. -/
def Coherent : (α → Option β) → List (Access α β) → Prop
  | _, [] => True
  | known, c :: cs => c.Fits known ∧ Coherent (c.learn known) cs

/-- What is known of the memory in the end. -/
def learned (known : α → Option β) (cs : List (Access α β)) : α → Option β := cs.foldl Access.learn known

/-- No more is known of a memory than is in it. -/
def Below (known view : α → Option β) : Prop := ∀ a x, known a = some x → view a = some x

variable {known view view' : α → Option β} {c : Access α β} {cs : List (Access α β)}

theorem coherent_snoc : Coherent known (cs ++ [c]) ↔ Coherent known cs ∧ c.Fits (learned known cs) := by
  induction cs generalizing known with
  | nil => exact ⟨fun h => ⟨trivial, h.1⟩, fun h => ⟨h.2, trivial⟩⟩
  | cons d cs ih =>
      change d.Fits known ∧ Coherent (d.learn known) (cs ++ [c]) ↔ _
      rw [ih]
      exact and_assoc.symm

theorem learned_snoc (known : α → Option β) (cs : List (Access α β)) (c : Access α β) :
    learned known (cs ++ [c]) = c.learn (learned known cs) := by
  unfold learned
  rw [List.foldl_append]
  rfl

omit [DecidableEq α] in
theorem Access.Fits.below (h : c.Fits view) (hbelow : Below known view) : c.Fits known := by
  cases c with
  | read a x => exact fun y hy => h y (hbelow a y hy)
  | write a x => trivial

theorem Below.learn (hbelow : Below known view) (c : Access α β) : Below (c.learn known) (c.learn view) := by
  have hupdate : ∀ a x, Below (Function.update known a (some x)) (Function.update view a (some x)) := by
    intro a x b y hy
    by_cases hb : b = a
    · subst hb
      rw [Function.update_self] at hy ⊢
      exact hy
    · rw [Function.update_of_ne hb] at hy ⊢
      exact hbelow b y hy
  cases c with
  | read a x => exact hupdate a x
  | write a x => exact hupdate a x

/-- The runs of a system are coherent when every step fits its contents, and leaves in them what is then known. -/
theorem run_coherent {σ : Type} {step : σ → Access α β → σ → Prop} {s t : σ} (view : σ → α → Option β) (I : σ → Prop)
    (hstep : ∀ s c t, I s → step s c t → I t ∧ c.Fits (view s) ∧ Below (c.learn (view s)) (view t))
    (hrun : Run step s cs t) (h₀ : I s) : I t ∧ Coherent (view s) cs := by
  have hall : (I t ∧ Coherent (view s) cs) ∧ Below (learned (view s) cs) (view t) := by
    induction hrun with
    | nil => exact ⟨⟨h₀, trivial⟩, fun _ _ h => h⟩
    | @snoc cs c t u _ hc ih =>
        obtain ⟨⟨hinv, hcoherent⟩, hbelow⟩ := ih
        obtain ⟨hinv', hfits, hnew⟩ := hstep _ _ _ hinv hc
        refine ⟨⟨hinv', coherent_snoc.2 ⟨hcoherent, hfits.below hbelow⟩⟩, ?_⟩
        rw [learned_snoc]
        exact fun a x hx => hnew a x (hbelow.learn c a x hx)
  exact hall.1

end Coherence
