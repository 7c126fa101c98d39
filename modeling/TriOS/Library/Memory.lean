import Mathlib

/-!
# Memory — ranges copied between memories

A memory is a function from addresses. `copy` moves a range into another memory, as `memcpy` does between
ranges that do not overlap.
-/

namespace Memory

variable {α : Type*} {a b c : Nat → α} {i j k n m : Nat}

/-- The memory `a` with `n` cells from `i` on taken from the cells of `b` from `j` on. -/
def copy (a : Nat → α) (i : Nat) (b : Nat → α) (j n : Nat) : Nat → α :=
  fun x => if i ≤ x ∧ x < i + n then b (j + (x - i)) else a x

theorem copy_of_mem {x : Nat} (hx : i ≤ x ∧ x < i + n) : copy a i b j n x = b (j + (x - i)) :=
  if_pos hx

theorem copy_of_not_mem {x : Nat} (hx : ¬ (i ≤ x ∧ x < i + n)) : copy a i b j n x = a x :=
  if_neg hx

@[simp] theorem copy_zero : copy a i b j 0 = a := by
  funext x
  exact copy_of_not_mem (by omega)

/-- A copy by way of a buffer. -/
theorem copy_through : copy a i (copy b j c k n) j n = copy a i c k n := by
  funext x
  by_cases hx : i ≤ x ∧ x < i + n
  · rw [copy_of_mem hx, copy_of_mem hx, copy_of_mem (by omega), Nat.add_sub_cancel_left]
  · rw [copy_of_not_mem hx, copy_of_not_mem hx]

/-- Two copies, the second one behind the first. -/
theorem copy_copy : copy (copy a i b j n) (i + n) b (j + n) m = copy a i b j (n + m) := by
  funext x
  by_cases hfirst : i ≤ x ∧ x < i + n
  · rw [copy_of_not_mem (by omega), copy_of_mem hfirst, copy_of_mem (by omega)]
  · by_cases hsecond : i + n ≤ x ∧ x < i + n + m
    · rw [copy_of_mem hsecond, copy_of_mem (by omega)]
      congr 1
      omega
    · rw [copy_of_not_mem hsecond, copy_of_not_mem hfirst, copy_of_not_mem (by omega)]

end Memory
