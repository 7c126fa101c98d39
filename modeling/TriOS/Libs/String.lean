import TriOS.Library.CString
import TriOS.Library.Outcome

/-!
# string.c — scans over a string

`strchr` is used as a test only. The code that cuts a line in place overwrites runs of separators with NUL.
-/

namespace TriOS

open Outcome CString

/-- `strchr(s, c) != NULL` -/
def strchr (s : List UInt8) (c : UInt8) : Bool := s.contains c

/-- The loop `while (sep(*s)) *s ++ = '\0';` -/
def clearWhile (sep : UInt8 → Bool) : Nat → (Nat → UInt8) → Nat → Outcome ((Nat → UInt8) × Nat)
  | 0, _, _ => fuel
  | bound + 1, m, s =>
      if sep (m s) then clearWhile sep bound (Function.update m s 0) (s + 1)
      else done (m, s)

variable {sep : UInt8 → Bool} {m : Nat → UInt8} {p : Nat} {line : List UInt8}

/-- The separators in front of a string are overwritten with NUL, and nothing else is. -/
theorem clearWhile_spec (sep : UInt8 → Bool) (bound : Nat) (hsep : sep 0 = false) (h : Text m p line) (hbound : line.length < bound) :
    ∃ m', clearWhile sep bound m p = done (m', p + (line.takeWhile sep).length) ∧
      Text m' (p + (line.takeWhile sep).length) (line.dropWhile sep) ∧
      (∀ x, x < p ∨ p + (line.takeWhile sep).length ≤ x → m' x = m x) ∧
      ∀ x, p ≤ x → x < p + (line.takeWhile sep).length → m' x = 0 := by
  induction line generalizing m p bound with
  | nil =>
      obtain ⟨bound, rfl⟩ : ∃ k, bound = k + 1 := ⟨bound - 1, by omega⟩
      have hzero : m p = 0 := h
      have hstop : ¬ sep (m p) = true := by
        rw [hzero, hsep]
        exact Bool.false_ne_true
      exact ⟨m, by simp [clearWhile, hstop], h, fun _ _ => rfl, fun x hx hx' => absurd hx (by simpa using hx')⟩
  | cons c cs ih =>
      obtain ⟨bound, rfl⟩ : ∃ k, bound = k + 1 := ⟨bound - 1, by omega⟩
      obtain ⟨hpc, hne, htext⟩ := h
      by_cases hc : sep c = true
      · have hgo : sep (m p) = true := by
          rw [hpc]
          exact hc
        have htext' : Text (Function.update m p 0) (p + 1) cs :=
          htext.congr fun x hx _ => Function.update_of_ne (by omega) _ _
        obtain ⟨m', hrun, htext'', hsame, hzero⟩ := ih _ htext' (by simpa using hbound)
        have hlen : p + ((c :: cs).takeWhile sep).length = p + 1 + (cs.takeWhile sep).length := by
          rw [List.takeWhile_cons_of_pos hc, List.length_cons]
          omega
        rw [hlen, List.dropWhile_cons_of_pos hc, clearWhile, if_pos hgo]
        refine ⟨m', hrun, htext'', fun x hx => ?_, fun x hx hx' => ?_⟩
        · rw [hsame x (by omega)]
          exact Function.update_of_ne (by omega) _ _
        · by_cases hxp : x = p
          · rw [hxp, hsame p (Or.inl (Nat.lt_succ_self p)), Function.update_self]
          · exact hzero x (by omega) hx'
      · have hstop : ¬ sep (m p) = true := by
          rw [hpc]
          exact hc
        rw [List.takeWhile_cons_of_neg hc, List.dropWhile_cons_of_neg hc, List.length_nil, Nat.add_zero, clearWhile,
          if_neg hstop]
        exact ⟨m, rfl, ⟨hpc, hne, htext⟩, fun _ _ => rfl, fun x hx hx' => absurd hx (by omega)⟩

/-- Behind the separators there is none. -/
theorem dropWhile_head {c : UInt8} {cs : List UInt8} (hrest : line.dropWhile sep = c :: cs) : sep c = false := by
  have hhead := List.head_dropWhile_not sep (l := line) (by simp [hrest])
  simpa [hrest] using hhead

end TriOS
