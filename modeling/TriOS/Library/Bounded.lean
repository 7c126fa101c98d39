import TriOS.Library.Outcome

/-!
# Bounded — code whose loops have a bound

`Ends f P` says that code that is given a bound for its loops returns the same for every bound that is large enough,
with the property `P`. The rule for a sequence takes the larger one of two bounds.
-/

namespace Outcome

variable {α β : Type} {f g : Nat → Outcome α} {k : Nat → α → Outcome β} {P P' : α → Prop} {Q : β → Prop} {a : α}

/-- With a bound that is large enough, the code returns something with the property. -/
def Ends (f : Nat → Outcome α) (P : α → Prop) : Prop := ∃ a, Returns f a ∧ P a

theorem Ends.of_done (h : ∀ n, f n = done a) (ha : P a) : Ends f P := ⟨a, ⟨0, fun n _ => h n⟩, ha⟩

theorem Ends.mono (h : Ends f P) (hP : ∀ a, P a → P' a) : Ends f P' := by
  obtain ⟨a, hrun, ha⟩ := h
  exact ⟨a, hrun, hP a ha⟩

theorem Ends.bind (h : Ends f P) (hk : ∀ a, P a → Ends (fun n => k n a) Q) : Ends (fun n => f n >>= k n) Q := by
  obtain ⟨a, ⟨limit, hrun⟩, ha⟩ := h
  obtain ⟨b, ⟨limit', hrun'⟩, hb⟩ := hk a ha
  refine ⟨b, ⟨max limit limit', fun n hn => ?_⟩, hb⟩
  have hf : f n = done a := hrun n ((le_max_left _ _).trans hn)
  have hg : k n a = done b := hrun' n ((le_max_right _ _).trans hn)
  change (f n >>= k n) = done b
  rw [hf]
  exact hg

/-- A round of a loop takes one from the bound. -/
theorem Ends.round (h : Ends f P) (hg : ∀ n, g (n + 1) = f n) : Ends g P := by
  obtain ⟨a, ⟨limit, hrun⟩, ha⟩ := h
  refine ⟨a, ⟨limit + 1, fun n hn => ?_⟩, ha⟩
  obtain ⟨n, rfl⟩ : ∃ m, n = m + 1 := Nat.exists_eq_add_one.2 (Nat.lt_of_succ_le (Nat.le_of_add_left_le hn))
  rw [hg]
  exact hrun n (Nat.le_of_succ_le_succ hn)

theorem Ends.congr (h : Ends f P) (hg : ∀ n, g n = f n) : Ends g P := by
  obtain ⟨a, ⟨limit, hrun⟩, ha⟩ := h
  exact ⟨a, ⟨limit, fun n hn => (hg n).trans (hrun n hn)⟩, ha⟩

/-- What the code returns has the property. -/
theorem Ends.of_returns (h : Ends f P) (hrun : Returns f a) : P a := by
  obtain ⟨a', hrun', ha⟩ := h
  rw [hrun.unique hrun']
  exact ha

end Outcome
