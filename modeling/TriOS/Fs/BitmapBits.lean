import TriOS.Fs.Bitmap

/-!
# BitmapBits — the map of free blocks, bit by bit

What the functions of the map do to the bit of each index.
-/

namespace TriOS

open Outcome

variable {b b' : Bitmap} {w : UInt32} {o i j : Nat}

/-! ## Words -/

theorem bitMask_toBitVec (ho : o < 32) : (bitMask o).toBitVec = BitVec.twoPow 32 o := by
  unfold bitMask
  apply BitVec.eq_of_toNat_eq
  have hmod : o % 4294967296 = o := by omega
  simp [BitVec.toNat_twoPow, Nat.shiftLeft_eq, hmod, Nat.mod_eq_of_lt ho]

theorem or_bitMask (ho : o < 32) :
    (w ||| bitMask o).toBitVec.getLsbD j = (w.toBitVec.getLsbD j || decide (o = j)) := by
  rw [UInt32.toBitVec_or, BitVec.getLsbD_or, bitMask_toBitVec ho, BitVec.getLsbD_twoPow]
  simp [ho]

theorem xor_bitMask (ho : o < 32) :
    (w ^^^ bitMask o).toBitVec.getLsbD j = (w.toBitVec.getLsbD j ^^ decide (o = j)) := by
  rw [UInt32.toBitVec_xor, BitVec.getLsbD_xor, bitMask_toBitVec ho, BitVec.getLsbD_twoPow]
  simp [ho]

/-- The test of a bit of a word. -/
theorem and_bitMask (ho : o < 32) : (w &&& bitMask o != 0) = w.toBitVec.getLsbD o := by
  have hbit : ∀ j, (w &&& bitMask o).toBitVec.getLsbD j = (w.toBitVec.getLsbD j && decide (o = j)) := by
    intro j
    rw [UInt32.toBitVec_and, BitVec.getLsbD_and, bitMask_toBitVec ho, BitVec.getLsbD_twoPow]
    simp [ho]
  cases hw : w.toBitVec.getLsbD o with
  | true =>
      have hne : w &&& bitMask o ≠ 0 := by
        intro hzero
        have hself := hbit o
        rw [hzero, hw] at hself
        simp at hself
      simpa using hne
  | false =>
      have hzero : w &&& bitMask o = 0 := by
        rw [← UInt32.toBitVec_inj]
        apply BitVec.eq_of_getLsbD_eq
        intro j _
        rw [hbit j]
        by_cases hj : o = j
        · subst hj
          simp [hw]
        · simp [hj]
      simp [hzero]

/-- A word that is not 0 has a bit. -/
theorem exists_bit (hw : w ≠ 0) : ∃ o < 32, w.toBitVec.getLsbD o = true := by
  by_contra hnone
  apply hw
  rw [← UInt32.toBitVec_inj]
  apply BitVec.eq_of_getLsbD_eq
  intro o ho
  cases hbit : w.toBitVec.getLsbD o with
  | true => exact absurd ⟨o, ho, hbit⟩ hnone
  | false => simp

/-! ## The map -/

theorem Bitmap.bit_eq (b : Bitmap) (i : Nat) : b.bit i = (b.word i).toBitVec.getLsbD (i % 32) :=
  and_bitMask (Nat.mod_lt i (by decide))

theorem Bitmap.div_lt (h : i < b.nbits) : i / 32 < b.map.length := by
  have hle := b.nbits_le
  unfold wordBits at hle
  omega

theorem Bitmap.word_setWord (hi : i / 32 < b.map.length) :
    (b.setWord i w).word j = if j / 32 = i / 32 then w else b.word j := by
  unfold Bitmap.word Bitmap.setWord wordBits
  by_cases hj : j / 32 = i / 32
  · simp [hj, List.getD_eq_getElem?_getD, hi]
  · have hj' : i / 32 ≠ j / 32 := fun heq => hj heq.symm
    simp [hj, hj', List.getD_eq_getElem?_getD]

theorem same_bit_iff : j / 32 = i / 32 ∧ i % 32 = j % 32 ↔ j = i := by
  omega

theorem bitmapTest_spec (h : i < b.nbits) : bitmapTest b i = done (b.bit i) := by
  unfold bitmapTest
  rw [assert_of h]
  rfl

theorem bitmapFree_spec (h : i < b.nbits) (hused : b.bit i = false) :
    ∃ b', bitmapFree b i = done b' ∧ b'.nbits = b.nbits ∧ ∀ j, b'.bit j = (b.bit j || decide (j = i)) := by
  have hmod : i % 32 < 32 := Nat.mod_lt i (by decide)
  refine ⟨b.setWord i (b.word i ||| bitMask (i % 32)), ?_, rfl, fun j => ?_⟩
  · unfold bitmapFree
    rw [bitmapTest_spec h, bind_done, assert_of hused]
    rfl
  · rw [Bitmap.bit_eq, Bitmap.bit_eq, Bitmap.word_setWord (Bitmap.div_lt h)]
    by_cases hj : j / 32 = i / 32
    · have hword : b.word j = b.word i := by
        unfold Bitmap.word wordBits
        rw [hj]
      rw [if_pos hj, or_bitMask hmod, hword]
      congr 1
      exact decide_eq_decide.2 ⟨fun heq => same_bit_iff.1 ⟨hj, heq⟩, fun heq => heq ▸ rfl⟩
    · have hne : j ≠ i := fun heq => hj (heq ▸ rfl)
      simp [hj, hne]

/-- The first free index, if there is one. -/
theorem bitmapAlloc_spec (b : Bitmap) :
    (bitmapAlloc b = done none ∧ ∀ j, b.bit j = false) ∨
      ∃ i b', bitmapAlloc b = done (some (i, b')) ∧ b.bit i = true ∧ b'.nbits = b.nbits ∧
        ∀ j, b'.bit j = (b.bit j && decide (j ≠ i)) := by
  unfold bitmapAlloc
  cases hword : b.map.findIdx? (· != 0) with
  | none =>
      left
      refine ⟨rfl, fun j => ?_⟩
      have hzero := List.findIdx?_eq_none_iff.1 hword
      have hnone : b.word j = 0 := by
        unfold Bitmap.word
        rw [List.getD_eq_getElem?_getD]
        cases hget : b.map[j / wordBits]? with
        | none => rfl
        | some v => simpa using hzero v (List.mem_of_getElem? hget)
      rw [Bitmap.bit_eq, hnone]
      simp
  | some ix =>
      right
      obtain ⟨hlt, hne, -⟩ := List.findIdx?_eq_some_iff_getElem.1 hword
      have hdiv : ∀ o < 32, (ix * 32 + o) / 32 = ix ∧ (ix * 32 + o) % 32 = o := by
        intro o ho
        omega
      have hfirst : b.word (ix * wordBits) = b.map[ix] := by
        unfold Bitmap.word wordBits
        rw [Nat.mul_div_cancel ix (by decide), List.getD_eq_getElem?_getD, List.getElem?_eq_getElem hlt]
        rfl
      have hnonzero : b.word (ix * wordBits) ≠ 0 := by
        rw [hfirst]
        simpa using hne
      dsimp only
      cases hfind : (List.range wordBits).find? fun o => b.word (ix * wordBits) &&& bitMask o != 0 with
      | none =>
          obtain ⟨o, ho, hbit⟩ := exists_bit hnonzero
          have hclear := List.find?_eq_none.1 hfind o (List.mem_range.2 ho)
          rw [and_bitMask ho, hbit] at hclear
          exact absurd rfl hclear
      | some o =>
          have ho : o < 32 := List.mem_range.1 (List.mem_of_find?_eq_some hfind)
          have hbit := List.find?_some hfind
          rw [and_bitMask ho] at hbit
          obtain ⟨hquot, hrem⟩ := hdiv o ho
          have hsame : b.word (ix * 32 + o) = b.word (ix * wordBits) := by
            unfold Bitmap.word wordBits
            rw [hquot, Nat.mul_div_cancel ix (by decide)]
          refine ⟨ix * 32 + o, _, rfl, ?_, rfl, fun j => ?_⟩
          · rw [Bitmap.bit_eq, hrem, hsame]
            exact hbit
          · have hin : (ix * wordBits + o) / 32 < b.map.length := by
              unfold wordBits
              omega
            rw [Bitmap.bit_eq, Bitmap.bit_eq, Bitmap.word_setWord hin]
            unfold wordBits
            rw [hquot]
            by_cases hj : j / 32 = ix
            · have hword' : b.word j = b.word (ix * 32) := by
                unfold Bitmap.word wordBits
                rw [hj, Nat.mul_div_cancel ix (by decide)]
              rw [if_pos hj, xor_bitMask ho, hword']
              by_cases heq : j = ix * 32 + o
              · have hown : b.word (ix * 32) = b.word (ix * wordBits) := rfl
                simp [heq, hrem, hown, hbit]
              · have hne' : o ≠ j % 32 := by omega
                simp [heq, hne']
            · have hne' : j ≠ ix * 32 + o := by omega
              simp [hj, hne']

end TriOS
