import Mathlib
import TriOS.Library.Outcome

/-!
# bitmap.c — the map of free blocks

A bit that is set stands for a free index. The words hold at least `nbits` bits, which the structure
carries as a field, so that the accesses of the functions below stay inside the words.
-/

namespace TriOS

open Outcome

/-- `WORD_BITS` -/
def wordBits : Nat := 32

/-- `struct bitmap` -/
structure Bitmap where
  nbits : Nat
  map : List UInt32
  nbits_le : nbits ≤ map.length * wordBits

/-- The mask of a bit in its word. -/
def bitMask (offset : Nat) : UInt32 :=
  1 <<< UInt32.ofNat offset

/-- The word that holds an index. -/
def Bitmap.word (b : Bitmap) (index : Nat) : UInt32 :=
  b.map.getD (index / wordBits) 0

/-- The bit of an index. -/
def Bitmap.bit (b : Bitmap) (index : Nat) : Bool :=
  b.word index &&& bitMask (index % wordBits) != 0

/-- `bitmap_test` -/
def bitmapTest (b : Bitmap) (index : Nat) : Outcome Bool := do
  assert (index < b.nbits)
  pure (b.bit index)

/-- The bitmap with another word in the place of the one that holds the index. -/
def Bitmap.setWord (b : Bitmap) (index : Nat) (word : UInt32) : Bitmap :=
  { nbits := b.nbits
    map := b.map.set (index / wordBits) word
    nbits_le := by simpa using b.nbits_le }

/-- `bitmap_free` -/
def bitmapFree (b : Bitmap) (index : Nat) : Outcome Bitmap := do
  let free ← bitmapTest b index
  assert (free = false)
  pure (b.setWord index (b.word index ||| bitMask (index % wordBits)))

/-- `bitmap_alloc`: the first free index, and the bitmap without it. -/
def bitmapAlloc (b : Bitmap) : Outcome (Option (Nat × Bitmap)) :=
  match b.map.findIdx? (· != 0) with
  | none => done none
  | some ix =>
      let word := b.word (ix * wordBits)
      match (List.range wordBits).find? fun offset => word &&& bitMask offset != 0 with
      | none => panic
      | some offset =>
          let index := ix * wordBits + offset
          done (some (index, b.setWord index (word ^^^ bitMask offset)))

end TriOS
