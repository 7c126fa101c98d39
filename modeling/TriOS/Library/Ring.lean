import Mathlib

/-!
# Ring — a queue kept in a circle

The cells of a ring are numbered without end, and cell `i` lies at the place `i % size` of an array.
`contents` reads a stretch of cells in order. A queue leaves at the first cell of its stretch and enters
behind the last one.
-/

namespace Ring

variable {α : Type*} {size r n : Nat} {buf : Nat → α} {a : α}

/-- What the `n` cells from cell `r` on hold. -/
def contents (size : Nat) (buf : Nat → α) (r n : Nat) : List α :=
  (List.range n).map fun i => buf ((r + i) % size)

@[simp] theorem contents_length : (contents size buf r n).length = n := by
  simp [contents]

@[simp] theorem contents_zero : contents size buf r 0 = [] := rfl

/-- The first cell leaves. -/
theorem contents_succ : contents size buf r (n + 1) = buf (r % size) :: contents size buf (r + 1) n := by
  simp [contents, List.range_succ_eq_map, Function.comp_def, Nat.add_assoc, Nat.add_comm 1]

/-- The last cell entered last. -/
theorem contents_concat :
    contents size buf r (n + 1) = contents size buf r n ++ [buf ((r + n) % size)] := by
  simp [contents, List.range_succ]

/-- A stretch is read in two parts. -/
theorem contents_add (n m : Nat) :
    contents size buf r (n + m) = contents size buf r n ++ contents size buf (r + n) m := by
  induction m with
  | zero => simp
  | succ m ih => rw [← Nat.add_assoc, contents_concat, ih, contents_concat, List.append_assoc, Nat.add_assoc]

/-- Two cells less than a circle apart lie at different places. -/
theorem place_ne (hn : n < size) {i : Nat} (hi : i < n) : (r + i) % size ≠ (r + n) % size := by
  intro heq
  have hmod : i % size = n % size := Nat.ModEq.add_left_cancel' r heq
  rw [Nat.mod_eq_of_lt (by omega), Nat.mod_eq_of_lt hn] at hmod
  omega

/-- The cell behind the last one is not part of the stretch while the stretch is shorter than the circle. -/
theorem contents_update (hn : n < size) :
    contents size (Function.update buf ((r + n) % size) a) r n = contents size buf r n := by
  apply List.map_congr_left
  intro i hi
  exact Function.update_of_ne (place_ne hn (List.mem_range.1 hi)) a buf

/-- A queue that is shorter than the circle grows by one element. -/
theorem contents_push (buf : Nat → α) (r : Nat) (a : α) (hn : n < size) :
    contents size (Function.update buf ((r + n) % size) a) r (n + 1) = contents size buf r n ++ [a] := by
  rw [contents_concat, contents_update hn, Function.update_self]

/-- In a full ring the cell behind the last one is the first one. -/
theorem contents_overwrite :
    contents (n + 1) (Function.update buf ((r + (n + 1)) % (n + 1)) a) r (n + 1) =
      a :: contents (n + 1) buf (r + 1) n := by
  have hplace : (r + (n + 1)) % (n + 1) = r % (n + 1) := Nat.add_mod_right r (n + 1)
  have hplace' : (r + (n + 1)) % (n + 1) = (r + 1 + n) % (n + 1) := by
    rw [Nat.add_right_comm, Nat.add_assoc]
  rw [contents_succ]
  congr 1
  · rw [hplace, Function.update_self]
  · rw [hplace']
    exact contents_update (Nat.lt_succ_self n)

end Ring
