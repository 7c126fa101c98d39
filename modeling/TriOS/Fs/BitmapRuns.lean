import TriOS.Fs.BitmapBits
import TriOS.Library.Transition

/-!
# BitmapRuns — the map of free blocks from its creation on

`bitmap_create`, and the runs of `bitmap_alloc` and `bitmap_free` after it. The indices that a caller holds are
kept beside the map: they are the ones whose bits are clear, and no bit behind the last index is ever set.
-/

namespace TriOS

open Outcome

/-! ## Creation -/

/-- The loop of `bitmap_create` over the leftover bits of the last word: `rounds` more from `overbits` on. -/
def clearLeftover (word : UInt32) : Nat → Nat → UInt32
  | 0, _ => word
  | rounds + 1, overbits => clearLeftover (word ^^^ bitMask overbits) rounds (overbits + 1)

/-- `ROUNDUP_DIV(nbits, WORD_BITS)` -/
def bitmapWords (nbits : Nat) : Nat := (nbits + wordBits - 1) / wordBits

theorem le_bitmapWords (nbits : Nat) : nbits ≤ bitmapWords nbits * wordBits := by
  unfold bitmapWords wordBits
  omega

/-- A map with all bits set. -/
def fullMap (nbits : Nat) : List UInt32 := List.replicate (bitmapWords nbits) 0xFFFFFFFF

theorem le_fullMap_set (nbits ix : Nat) (word : UInt32) :
    nbits ≤ ((fullMap nbits).set ix word).length * wordBits := by
  unfold fullMap
  rw [List.length_set, List.length_replicate]
  exact le_bitmapWords nbits

theorem le_fullMap (nbits : Nat) : nbits ≤ (fullMap nbits).length * wordBits := by
  unfold fullMap
  rw [List.length_replicate]
  exact le_bitmapWords nbits

/-- `bitmap_create`, where `kmalloc` answers the two requests with `first` and `second`. -/
def bitmapCreate (nbits : Nat) (first second : Bool) : Outcome (Option Bitmap) := do
  assert (nbits ≠ 0 ∧ nbits < (nbits + wordBits) % 2 ^ 64)
  if first = false then pure none
  else if second = false then pure none
  else if nbits ≠ bitmapWords nbits * wordBits then do
    let ix := bitmapWords nbits - 1
    let overbits := nbits - ix * wordBits
    assert (nbits / wordBits = ix)
    assert (0 < overbits ∧ overbits < wordBits)
    let word := clearLeftover ((fullMap nbits).getD ix 0) (wordBits - overbits) overbits
    pure (some
      { nbits := nbits
        map := (fullMap nbits).set ix word
        nbits_le := le_fullMap_set nbits ix word })
  else pure (some { nbits := nbits, map := fullMap nbits, nbits_le := le_fullMap nbits })

variable {b b' : Bitmap} {w : UInt32} {o i j rounds nbits : Nat}

/-- The loop turns the bits over from `o` on. -/
theorem clearLeftover_bit (ho : o + rounds = 32) :
    (clearLeftover w rounds o).toBitVec.getLsbD j = (w.toBitVec.getLsbD j ^^ decide (o ≤ j ∧ j < 32)) := by
  induction rounds generalizing w o with
  | zero =>
      have hnone : ¬ (o ≤ j ∧ j < 32) := by omega
      unfold clearLeftover
      rw [decide_eq_false hnone, Bool.xor_false]
  | succ rounds ih =>
      unfold clearLeftover
      rw [ih (by omega), xor_bitMask (by omega), Bool.xor_assoc]
      congr 1
      by_cases hj : o = j
      · have hlt : j < 32 := by omega
        simp [hj, hlt]
      · have hiff : o + 1 ≤ j ∧ j < 32 ↔ o ≤ j ∧ j < 32 := by omega
        simp only [hj, decide_false, Bool.false_xor, decide_eq_decide]
        exact hiff

theorem full_bit (hj : j < 32) : (0xFFFFFFFF : UInt32).toBitVec.getLsbD j = true := by
  have hall : ∀ j < 32, (0xFFFFFFFF : UInt32).toBitVec.getLsbD j = true := by decide
  exact hall j hj

theorem fullMap_getD (h : i / wordBits < bitmapWords nbits) : (fullMap nbits).getD (i / wordBits) 0 = 0xFFFFFFFF := by
  unfold fullMap
  rw [List.getD_eq_getElem?_getD, List.getElem?_replicate, if_pos h]
  rfl

/-- Behind the words there is no bit. -/
theorem Bitmap.bit_of_length_le (h : b.map.length ≤ i / wordBits) : b.bit i = false := by
  have hword : b.word i = 0 := by
    unfold Bitmap.word
    rw [List.getD_eq_getElem?_getD, List.getElem?_eq_none h]
    rfl
  rw [Bitmap.bit_eq, hword]
  simp

/-- The map is created with the bits of its indices and no others. -/
theorem bitmapCreate_spec (hpos : 0 < nbits) (hlt : nbits < 2 ^ 32) :
    ∃ b, bitmapCreate nbits true true = done (some b) ∧ b.nbits = nbits ∧ ∀ i, b.bit i = decide (i < nbits) := by
  have hsize : nbits ≠ 0 ∧ nbits < (nbits + wordBits) % 2 ^ 64 := by
    unfold wordBits
    omega
  unfold bitmapCreate
  rw [assert_of hsize, bind_done, if_neg (by decide), if_neg (by decide)]
  by_cases hpad : nbits ≠ bitmapWords nbits * wordBits
  · rw [if_pos hpad]
    dsimp only
    have hlast : nbits / wordBits = bitmapWords nbits - 1 := by
      unfold bitmapWords wordBits at *
      omega
    have hover : 0 < nbits - (bitmapWords nbits - 1) * wordBits ∧
        nbits - (bitmapWords nbits - 1) * wordBits < wordBits := by
      unfold bitmapWords wordBits at *
      omega
    rw [assert_of hlast, bind_done, assert_of hover, bind_done]
    refine ⟨_, rfl, rfl, fun i => ?_⟩
    rw [Bitmap.bit_eq]
    unfold Bitmap.word
    dsimp only
    rw [List.getD_eq_getElem?_getD, List.getElem?_set]
    by_cases hword : bitmapWords nbits - 1 = i / wordBits
    · have hin : i / wordBits < bitmapWords nbits := by
        unfold bitmapWords wordBits at *
        omega
      have hlen : i / wordBits < (fullMap nbits).length := by
        unfold fullMap
        rw [List.length_replicate]
        exact hin
      have hrem : i % 32 < 32 := Nat.mod_lt i (by decide)
      have hrounds : nbits - (bitmapWords nbits - 1) * wordBits +
          (wordBits - (nbits - (bitmapWords nbits - 1) * wordBits)) = 32 := by
        unfold wordBits at *
        omega
      rw [if_pos hword, hword, if_pos hlen, Option.getD_some, fullMap_getD hin, ← hword, clearLeftover_bit hrounds,
        full_bit hrem, Bool.true_xor, ← decide_not, decide_eq_decide]
      unfold wordBits at *
      omega
    · rw [if_neg hword, ← List.getD_eq_getElem?_getD]
      by_cases hin : i / wordBits < bitmapWords nbits
      · rw [fullMap_getD hin, full_bit (Nat.mod_lt i (by decide))]
        refine (decide_eq_true ?_).symm
        unfold wordBits at *
        omega
      · have hnone : (fullMap nbits).getD (i / wordBits) 0 = 0 := by
          unfold fullMap
          rw [List.getD_eq_getElem?_getD, List.getElem?_replicate, if_neg hin]
          rfl
        rw [hnone, decide_eq_false]
        · simp
        · unfold bitmapWords wordBits at *
          omega
  · rw [if_neg hpad]
    refine ⟨_, rfl, rfl, fun i => ?_⟩
    have hexact : nbits = bitmapWords nbits * wordBits := not_not.1 hpad
    by_cases hin : i / wordBits < bitmapWords nbits
    · rw [Bitmap.bit_eq]
      unfold Bitmap.word
      dsimp only
      rw [fullMap_getD hin, full_bit (Nat.mod_lt i (by decide))]
      refine (decide_eq_true ?_).symm
      rw [hexact]
      exact (Nat.div_lt_iff_lt_mul (by decide)).1 hin
    · rw [Bitmap.bit_of_length_le, decide_eq_false]
      · intro hi
        rw [hexact] at hi
        exact hin ((Nat.div_lt_iff_lt_mul (by decide)).2 hi)
      · unfold fullMap
        rw [List.length_replicate]
        exact Nat.not_lt.1 hin

/-- Without memory there is no map. -/
theorem bitmapCreate_none {first second : Bool} (hpos : 0 < nbits) (hlt : nbits < 2 ^ 32)
    (h : first = false ∨ second = false) : bitmapCreate nbits first second = done none := by
  have hsize : nbits ≠ 0 ∧ nbits < (nbits + wordBits) % 2 ^ 64 := by
    unfold wordBits
    omega
  unfold bitmapCreate
  rw [assert_of hsize, bind_done]
  rcases h with rfl | rfl
  · rfl
  · cases first <;> rfl

/-! ## One call -/

theorem Bitmap.ext_of {b b' : Bitmap} (hnbits : b.nbits = b'.nbits) (hmap : b.map = b'.map) : b = b' := by
  cases b
  cases b'
  cases hnbits
  cases hmap
  rfl

theorem Bitmap.setWord_restore (w : UInt32) (hi : i / wordBits < b.map.length) :
    (b.setWord i w).setWord i (b.word i) = b := by
  refine Bitmap.ext_of rfl ?_
  unfold Bitmap.setWord Bitmap.word
  dsimp only
  rw [List.set_set, List.getD_eq_getElem?_getD, List.getElem?_eq_getElem hi]
  exact List.set_getElem_self hi

/-- A bit that is turned over twice. -/
theorem xor_or_bitMask (ho : o < 32) (hbit : w.toBitVec.getLsbD o = true) : (w ^^^ bitMask o) ||| bitMask o = w := by
  rw [← UInt32.toBitVec_inj]
  apply BitVec.eq_of_getLsbD_eq
  intro j _
  rw [or_bitMask ho, xor_bitMask ho]
  by_cases hj : o = j
  · subst hj
    simp [hbit]
  · simp [hj]

/-- `bitmap_alloc` takes the lowest free index, and `bitmap_free` of that index gives the map back. -/
theorem bitmapAlloc_lowest (h : bitmapAlloc b = done (some (i, b'))) (hi : i < b.nbits) :
    (∀ j < i, b.bit j = false) ∧ bitmapFree b' i = done b := by
  unfold bitmapAlloc at h
  cases hword : b.map.findIdx? (· != 0) with
  | none =>
      rw [hword] at h
      cases h
  | some ix =>
      rw [hword] at h
      dsimp only at h
      obtain ⟨hlt, hne, hbefore⟩ := List.findIdx?_eq_some_iff_getElem.1 hword
      cases hfind : (List.range wordBits).find? fun o => b.word (ix * wordBits) &&& bitMask o != 0 with
      | none =>
          rw [hfind] at h
          cases h
      | some o =>
          rw [hfind] at h
          cases h
          obtain ⟨hbit, ho, hlower⟩ := List.find?_range_eq_some.1 hfind
          have ho' : o < 32 := List.mem_range.1 ho
          have hquot : (ix * wordBits + o) / wordBits = ix := by
            unfold wordBits
            omega
          have hrem : (ix * wordBits + o) % wordBits = o := by
            unfold wordBits
            omega
          have hsame : ∀ j, j / wordBits = ix → b.word j = b.word (ix * wordBits) := by
            intro j hj
            unfold Bitmap.word
            rw [hj, Nat.mul_div_cancel ix (by decide)]
          constructor
          · intro j hj
            rcases Nat.lt_or_ge (j / wordBits) ix with hless | hge
            · have hzero := hbefore (j / wordBits) hless
              have hword' : b.word j = 0 := by
                unfold Bitmap.word
                rw [List.getD_eq_getElem?_getD, List.getElem?_eq_getElem (hless.trans hlt)]
                simpa using hzero
              rw [Bitmap.bit_eq, hword']
              simp
            · have heq : j / wordBits = ix := by
                unfold wordBits at *
                omega
              have hlow := hlower (j % wordBits) (by unfold wordBits at *; omega)
              unfold Bitmap.bit
              rw [hsame j heq]
              simpa using hlow
          · have hown := hsame (ix * wordBits + o) hquot
            have hin : (ix * wordBits + o) / wordBits < b.map.length := hquot.trans_lt hlt
            have hi' : ix * wordBits + o <
                (b.setWord (ix * wordBits + o) (b.word (ix * wordBits) ^^^ bitMask o)).nbits := hi
            rw [and_bitMask ho'] at hbit
            unfold bitmapFree bitmapTest
            rw [assert_of hi', bind_done]
            have hclear : (b.setWord (ix * wordBits + o) (b.word (ix * wordBits) ^^^ bitMask o)).bit
                (ix * wordBits + o) = false := by
              have hrem' : (ix * wordBits + o) % 32 = o := hrem
              rw [Bitmap.bit_eq, Bitmap.word_setWord hin, if_pos rfl, hrem', xor_bitMask ho', hbit]
              simp
            rw [hclear, pure_eq_done, bind_done, assert_of rfl, bind_done, Bitmap.word_setWord hin, if_pos rfl, hrem,
              xor_or_bitMask ho' hbit, ← hown, pure_eq_done, Bitmap.setWord_restore _ hin]

/-! ## Runs -/

/-- A call, with its answer. -/
inductive BitmapCall where
  | alloc (index : Option Nat)
  | free (index : Nat)

/-- One call on the map, beside the indices that are held. Only an index that is held is freed. -/
def BitmapStep (x : Bitmap × Finset Nat) (call : BitmapCall) (y : Bitmap × Finset Nat) : Prop :=
  match call with
  | .alloc none => bitmapAlloc x.1 = done none ∧ y = x
  | .alloc (some i) => ∃ b', bitmapAlloc x.1 = done (some (i, b')) ∧ y = (b', insert i x.2)
  | .free i => i ∈ x.2 ∧ ∃ b', bitmapFree x.1 i = done b' ∧ y = (b', x.2.erase i)

/-- The bits that are set are those of the indices that nobody holds. -/
structure FreeBits (nbits : Nat) (x : Bitmap × Finset Nat) : Prop where
  nbits_eq : x.1.nbits = nbits
  bit : ∀ i, x.1.bit i = true ↔ i < nbits ∧ i ∉ x.2
  held : ∀ i ∈ x.2, i < nbits

variable {x y : Bitmap × Finset Nat} {call : BitmapCall} {calls : List BitmapCall}

theorem FreeBits.clear (h : FreeBits nbits x) (hi : i ∈ x.2) : x.1.bit i = false :=
  Bool.eq_false_iff.2 fun hbit => ((h.bit i).1 hbit).2 hi

/-- An index that was taken is one that nobody held. -/
theorem FreeBits.alloc (h : FreeBits nbits x) (halloc : bitmapAlloc x.1 = done (some (i, b'))) :
    x.1.bit i = true ∧ FreeBits nbits (b', insert i x.2) ∧ ∀ j, b'.bit j = (x.1.bit j && decide (j ≠ i)) := by
  rcases bitmapAlloc_spec x.1 with ⟨hnone, -⟩ | ⟨i', b'', hsome, hbit, hnbits, hbits⟩
  · cases hnone.symm.trans halloc
  · cases hsome.symm.trans halloc
    refine ⟨hbit, ⟨hnbits.trans h.nbits_eq, fun j => ?_, fun j hj => ?_⟩, hbits⟩
    · dsimp only
      rw [hbits, Bool.and_eq_true, h.bit, decide_eq_true_iff, Finset.mem_insert, not_or]
      tauto
    · rcases Finset.mem_insert.1 hj with rfl | hj
      · exact ((h.bit j).1 hbit).1
      · exact h.held j hj

theorem FreeBits.free (h : FreeBits nbits x) (hi : i ∈ x.2) :
    ∃ b', bitmapFree x.1 i = done b' ∧ FreeBits nbits (b', x.2.erase i) ∧
      ∀ j, b'.bit j = (x.1.bit j || decide (j = i)) := by
  obtain ⟨b', hfree, hnbits, hbits⟩ := bitmapFree_spec ((h.held i hi).trans_eq h.nbits_eq.symm) (h.clear hi)
  refine ⟨b', hfree, ⟨hnbits.trans h.nbits_eq, fun j => ?_, fun j hj => ?_⟩, hbits⟩
  · dsimp only
    rw [hbits, Bool.or_eq_true, h.bit, decide_eq_true_iff, Finset.mem_erase, not_and]
    by_cases hj : j = i
    · subst hj
      simp [h.held j hi]
    · simp [hj]
  · exact h.held j (Finset.mem_of_mem_erase hj)

theorem FreeBits.step (h : FreeBits nbits x) (hstep : BitmapStep x call y) : FreeBits nbits y := by
  cases call with
  | alloc index =>
      cases index with
      | none =>
          obtain ⟨-, rfl⟩ := hstep
          exact h
      | some i =>
          obtain ⟨b', halloc, rfl⟩ := hstep
          exact (h.alloc halloc).2.1
  | free i =>
      obtain ⟨hi, b', hfree, rfl⟩ := hstep
      obtain ⟨b'', hfree', hbits, -⟩ := h.free hi
      cases hfree.symm.trans hfree'
      exact hbits

theorem FreeBits.run (h : FreeBits nbits x) (hrun : Transition.Run BitmapStep x calls y) : FreeBits nbits y :=
  hrun.invariant (FreeBits nbits) (fun _ _ _ => FreeBits.step) h

/-- The map after `bitmap_create`, when nobody holds an index. -/
theorem freeBits_of_create (hnbits : b.nbits = nbits) (hbits : ∀ i, b.bit i = decide (i < nbits)) :
    FreeBits nbits (b, ∅) := by
  refine ⟨hnbits, fun i => ?_, fun i hi => absurd hi (Finset.notMem_empty i)⟩
  rw [hbits]
  simp

end TriOS
