import Mathlib

/-!
# CString — strings in memory

`Chars` says that some bytes lie in memory from an address on, `Text` that they form a string with a zero
byte behind it. Both follow the list of the bytes.
-/

namespace CString

variable {m m' : Nat → UInt8} {p : Nat} {c : UInt8} {cs ds : List UInt8}

/-- The bytes `cs` lie in memory from `p` on. -/
def Chars (m : Nat → UInt8) : Nat → List UInt8 → Prop
  | _, [] => True
  | p, c :: cs => m p = c ∧ Chars m (p + 1) cs

/-- The string at `p` is `cs`. -/
def Text (m : Nat → UInt8) : Nat → List UInt8 → Prop
  | p, [] => m p = 0
  | p, c :: cs => m p = c ∧ c ≠ 0 ∧ Text m (p + 1) cs

theorem chars_append : Chars m p (cs ++ ds) ↔ Chars m p cs ∧ Chars m (p + cs.length) ds := by
  induction cs generalizing p with
  | nil => simp [Chars]
  | cons c cs ih => simp [Chars, ih, and_assoc, Nat.add_assoc, Nat.add_comm 1]

theorem Chars.congr (h : Chars m p cs) (hm : ∀ x, p ≤ x → x < p + cs.length → m' x = m x) : Chars m' p cs := by
  induction cs generalizing p with
  | nil => trivial
  | cons c cs ih =>
      rw [List.length_cons] at hm
      exact ⟨(hm p le_rfl (by omega)).trans h.1, ih h.2 fun x hx hx' => hm x (by omega) (by omega)⟩

theorem Text.chars (h : Text m p cs) : Chars m p cs := by
  induction cs generalizing p with
  | nil => trivial
  | cons c cs ih => exact ⟨h.1, ih h.2.2⟩

theorem Text.ne_zero (h : Text m p cs) : ∀ c ∈ cs, c ≠ 0 := by
  induction cs generalizing p with
  | nil => simp
  | cons c cs ih =>
      intro d hd
      rcases List.mem_cons.1 hd with rfl | hd
      · exact h.2.1
      · exact ih h.2.2 d hd

theorem text_append : Text m p (cs ++ ds) ↔ (Chars m p cs ∧ ∀ c ∈ cs, c ≠ 0) ∧ Text m (p + cs.length) ds := by
  induction cs generalizing p with
  | nil => simp [Chars]
  | cons c cs ih =>
      simp only [List.cons_append, Text, Chars, ih, List.mem_cons, forall_eq_or_imp, List.length_cons,
        Nat.add_assoc, Nat.add_comm 1]
      tauto

theorem text_iff : Text m p cs ↔ (Chars m p cs ∧ ∀ c ∈ cs, c ≠ 0) ∧ m (p + cs.length) = 0 := by
  have h : Text m p (cs ++ []) ↔ (Chars m p cs ∧ ∀ c ∈ cs, c ≠ 0) ∧ Text m (p + cs.length) [] := text_append
  rwa [List.append_nil] at h

/-- A string is determined by the memory. -/
theorem Text.unique (h : Text m p cs) (h' : Text m p ds) : cs = ds := by
  induction cs generalizing p ds with
  | nil =>
      cases ds with
      | nil => rfl
      | cons d ds => exact absurd (h'.1.symm.trans h) h'.2.1
  | cons c cs ih =>
      cases ds with
      | nil => exact absurd (h.1.symm.trans h') h.2.1
      | cons d ds => rw [← h.1, ← h'.1, ih h.2.2 h'.2.2]

theorem Text.congr (h : Text m p cs) (hm : ∀ x, p ≤ x → x ≤ p + cs.length → m' x = m x) : Text m' p cs := by
  obtain ⟨⟨hchars, hne⟩, hzero⟩ := text_iff.1 h
  exact text_iff.2 ⟨⟨hchars.congr fun x hx hx' => hm x hx hx'.le, hne⟩,
    (hm _ (Nat.le_add_right _ _) le_rfl).trans hzero⟩

end CString
