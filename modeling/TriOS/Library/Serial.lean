import Mathlib

/-!
# Serial — counters that wrap around

Two counters of `w` bits are compared by their difference as a signed number. The comparison is an
order only on counters that lie in a window: here, pairwise within `bound` of each other, with four
times `bound` below the range. A counter that is minimal in a window can be advanced by at most
`bound` without leaving it.
-/

namespace Serial

variable {w : Nat}

/-- The difference of two counters as a signed number. -/
def diff (a b : BitVec w) : Int :=
  (a - b).toInt

/-- `a` is within `bound` of `b`. -/
def Near (bound : Nat) (a b : BitVec w) : Prop :=
  |diff a b| ≤ bound

variable {a b c d : BitVec w} {bound : Nat}

theorem diff_self : diff a a = 0 := by
  simp [diff]

theorem toInt_add_eq (h : 2 * |a.toInt + b.toInt| < 2 ^ w) :
    (a + b).toInt = a.toInt + b.toInt := by
  have hle := neg_abs_le (a.toInt + b.toInt)
  have hge := le_abs_self (a.toInt + b.toInt)
  rw [BitVec.toInt_add]
  refine Int.bmod_eq_of_le_mul_two ?_ ?_
  · push_cast
    linarith
  · push_cast
    linarith

/-- Differences add up as long as the sum is in range. -/
theorem diff_trans (h : 2 * |diff a b + diff b c| < 2 ^ w) : diff a c = diff a b + diff b c := by
  have hsum : a - c = (a - b) + (b - c) := by ring
  unfold diff at h ⊢
  rw [hsum, toInt_add_eq h]

theorem diff_neg (h : 2 * |diff a b| < 2 ^ w) : diff b a = - diff a b := by
  have hneg : b - a = - (a - b) := by ring
  have hle := neg_abs_le (diff a b)
  have hge := le_abs_self (diff a b)
  unfold diff at h hle hge ⊢
  rw [hneg, BitVec.toInt_neg]
  refine Int.bmod_eq_of_le_mul_two ?_ ?_
  · push_cast
    linarith
  · push_cast
    linarith

/-- A counter that is advanced. -/
theorem diff_add (hd : 2 * d.toNat < 2 ^ w) (h : 2 * |diff a b + d.toNat| < 2 ^ w) :
    diff (a + d) b = diff a b + d.toNat := by
  have hsum : a + d - b = (a - b) + d := by ring
  have hint : d.toInt = d.toNat := BitVec.toInt_eq_toNat_of_lt hd
  unfold diff at h ⊢
  rw [← hint] at h ⊢
  rw [hsum, toInt_add_eq h]

/-! ## Windows -/

theorem Near.refl : Near bound a a := by
  unfold Near
  rw [diff_self]
  simp

section

variable (hbound : 4 * (bound : Int) < 2 ^ w)

include hbound

theorem Near.diff_neg (h : Near bound a b) : diff b a = - diff a b := by
  refine Serial.diff_neg ?_
  unfold Near at h
  have := abs_nonneg (diff a b)
  linarith

theorem Near.symm (h : Near bound a b) : Near bound b a := by
  have hneg := h.diff_neg hbound
  unfold Near at h ⊢
  rw [hneg, abs_neg]
  exact h

theorem Near.total (h : Near bound a b) : diff a b ≤ 0 ∨ diff b a ≤ 0 := by
  rw [h.diff_neg hbound]
  omega

theorem Near.le_trans (hab : Near bound a b) (hbc : Near bound b c) (h1 : diff a b ≤ 0)
    (h2 : diff b c ≤ 0) : diff a c ≤ 0 := by
  unfold Near at hab hbc
  have hsum := abs_add_le (diff a b) (diff b c)
  rw [diff_trans (by linarith)]
  omega

/-- A counter that is not after `b` stays near it when it is advanced. -/
theorem Near.advance (h : Near bound a b) (hle : diff a b ≤ 0) (hd : d.toNat ≤ bound) :
    Near bound (a + d) b := by
  unfold Near at h ⊢
  have hlow := neg_abs_le (diff a b)
  have hd' : (d.toNat : Int) ≤ bound := by exact_mod_cast hd
  have habs : |diff a b + d.toNat| ≤ bound := by
    refine abs_le.2 ⟨?_, ?_⟩
    · have := Int.natCast_nonneg d.toNat
      linarith
    · linarith
  have hrange : 2 * d.toNat < 2 ^ w := by
    have : 4 * bound < 2 ^ w := by exact_mod_cast hbound
    omega
  rw [diff_add hrange (by have := abs_nonneg (diff a b + d.toNat); linarith)]
  exact habs

end

end Serial
