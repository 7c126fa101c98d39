import TriOS.Library.OneWay
import TriOS.Library.Blocks
import TriOS.Library.Outcome
import TriOS.Mm.Pte

/-!
# kmalloc.c — a list of blocks for small sizes, pages for large ones

Addresses count units of `SLOB_UNIT` bytes here. The free blocks of the SLOB allocator are a circular
list in the order of their addresses, which starts at the static block `arena`; `slobfree` moves round
it. What the page allocator answers is given with the call.
-/

namespace TriOS
namespace Slob

open Outcome

/-- `SLOB_UNIT` -/
def slobUnit : Nat := 16

/-- The units of a page. -/
def pageUnits : Nat := pgSize / slobUnit

/-- `SLOB_UNITS` -/
def slobUnits (size : Nat) : Nat := (size + slobUnit - 1) / slobUnit

/-- `sizeof(bigblock_t)` -/
def sizeofBigblock : Nat := 24

/-- `struct bigblock` -/
structure Bigblock where
  order : Nat
  pages : Nat
  next : Option Nat
  deriving DecidableEq

/-- The state of `kmalloc.c`: the fields of the blocks, `slobfree`, the records of `bigblocks` and its
head, and the number of free pages. -/
structure Heap where
  units : Nat → Nat
  next : Nat → Nat
  slobfree : Nat
  big : Nat → Bigblock
  bigblocks : Option Nat
  nrFree : Int

/-- Store to `units`. -/
def Heap.setUnits (s : Heap) (b n : Nat) : Heap := { s with units := Function.update s.units b n }

/-- Store to `next`. -/
def Heap.setNext (s : Heap) (b c : Nat) : Heap := { s with next := Function.update s.next b c }

/-- Store to a record of `bigblocks`. -/
def Heap.setBig (s : Heap) (b : Nat) (bb : Bigblock) : Heap := { s with big := Function.update s.big b bb }

/-- `__slob_get_free_pages`; `page` is what `alloc_pages` answers. -/
def slobGetFreePages (s : Heap) (order : Nat) (page : Option Nat) : Option Nat × Heap :=
  match page with
  | none => (none, s)
  | some page => (some (page * pageUnits), { s with nrFree := s.nrFree - 2 ^ order })

/-- `__slob_free_pages` -/
def slobFreePages (s : Heap) (order : Nat) : Heap :=
  { s with nrFree := s.nrFree + 2 ^ order }

/-! ## slob_free -/

/-- Where the position loop of `slob_free` ends. -/
def Reinsertion (next : Nat → Nat) (b cur : Nat) : Prop :=
  (b > cur ∧ b < next cur) ∨ (cur ≥ next cur ∧ (b > cur ∨ b < next cur))

instance (next : Nat → Nat) (b : Nat) : DecidablePred (Reinsertion next b) :=
  fun _ => inferInstanceAs (Decidable (_ ∨ _))

/-- The position loop of `slob_free` -/
def slobFreeLoop (next : Nat → Nat) (b : Nat) : Nat → Nat → Outcome Nat
  | 0, _ => fuel
  | bound + 1, cur => if Reinsertion next b cur then pure cur else slobFreeLoop next b bound (next cur)

/-- `slob_free` joins the block with the one behind `cur`, or lets it point there. -/
def slobJoinNext (s : Heap) (b cur : Nat) : Heap :=
  if b + s.units b = s.next cur then
    let s := s.setUnits b (s.units b + s.units (s.next cur))
    s.setNext b (s.next (s.next cur))
  else s.setNext b (s.next cur)

/-- `slob_free` joins `cur` with the block, or lets it point there. -/
def slobJoinPrev (s : Heap) (b cur : Nat) : Heap :=
  if cur + s.units cur = b then
    let s := s.setUnits cur (s.units cur + s.units b)
    s.setNext cur (s.next b)
  else s.setNext cur b

/-- The end of `slob_free`: the block is linked in behind `cur`. -/
def slobReinsert (s : Heap) (b cur : Nat) : Heap :=
  { slobJoinPrev (slobJoinNext s b cur) b cur with slobfree := cur }

/-- `slob_free` -/
def slobFree (bound : Nat) (s : Heap) (b size : Nat) : Outcome Heap :=
  if b = 0 then pure s
  else do
    let s := if size ≠ 0 then s.setUnits b (slobUnits size) else s
    let cur ← slobFreeLoop s.next b bound s.slobfree
    pure (slobReinsert s b cur)

/-! ## slob_alloc -/

/-- What `slob_alloc` does when the block `cur` behind `prev` is large enough. -/
def slobTake (s : Heap) (units prev cur : Nat) : Heap :=
  let s :=
    if s.units cur = units then s.setNext prev (s.next cur)
    else
      let s := s.setNext prev (cur + units)
      let s := s.setUnits (s.next prev) (s.units cur - units)
      let s := s.setNext (s.next prev) (s.next cur)
      s.setUnits cur units
  { s with slobfree := prev }

/-- The loop of `slob_alloc`; `grants` has the answers to the requests for a page. -/
def slobAllocLoop (size : Nat) : Nat → (Nat → Option Nat) → Heap → Nat → Nat → Outcome (Option Nat × Heap)
  | 0, _, _, _, _ => fuel
  | bound + 1, grants, s, prev, cur =>
      if s.units cur ≥ slobUnits size then pure (some cur, slobTake s (slobUnits size) prev cur)
      else if cur = s.slobfree then
        if size = pgSize then pure (none, s)
        else
          match slobGetFreePages s 0 (grants 0) with
          | (none, s) => pure (none, s)
          | (some cur, s) => do
              let s ← slobFree bound s cur pgSize
              slobAllocLoop size bound (fun i => grants (i + 1)) s s.slobfree (s.next s.slobfree)
      else slobAllocLoop size bound grants s cur (s.next cur)

/-- `slob_alloc`, without an alignment as in all its calls. -/
def slobAlloc (bound : Nat) (grants : Nat → Option Nat) (s : Heap) (size : Nat) : Outcome (Option Nat × Heap) := do
  Outcome.assert (size + slobUnit < pgSize)
  slobAllocLoop size bound grants s s.slobfree (s.next s.slobfree)

/-! ## kmalloc -/

/-- The conversion of a `size_t` to an `int`. -/
def toInt (size : Nat) : Int :=
  if size % 2 ^ 32 < 2 ^ 31 then (size % 2 ^ 32 : Nat) else (size % 2 ^ 32 : Nat) - 2 ^ 32

/-- The loop of `find_order`, which halves an `int` and has not more rounds than that has bits. -/
def findOrderLoop : Nat → Int → Nat
  | 0, _ => 0
  | bits + 1, size => if size > 4096 then findOrderLoop bits (size / 2) + 1 else 0

/-- `find_order` -/
def findOrder (size : Int) : Nat := findOrderLoop 32 size

/-- The end of `__kmalloc` for a large size, once there is a block for the record. -/
def kmallocPages (bound : Nat) (s : Heap) (bb size : Nat) (run : Option Nat) : Outcome (Option Nat × Heap) :=
  let order := findOrder (toInt size)
  match slobGetFreePages s order run with
  | (some pages, s) =>
      let s := s.setBig bb { order := order, pages := pages, next := s.bigblocks }
      pure (some pages, { s with bigblocks := some bb })
  | (none, s) => do
      let s := s.setBig bb { s.big bb with order := order, pages := 0 }
      let s ← slobFree bound s bb sizeofBigblock
      pure (none, s)

/-- `kmalloc`; `run` is the answer to the request for the pages of a large block. -/
def kmalloc (bound : Nat) (grants : Nat → Option Nat) (run : Option Nat) (s : Heap) (size : Nat) :
    Outcome (Option Nat × Heap) :=
  if size < pgSize - slobUnit then do
    let (m, s) ← slobAlloc bound grants s (size + slobUnit)
    pure (m.map (· + 1), s)
  else do
    let (bb, s) ← slobAlloc bound grants s sizeofBigblock
    match bb with
    | none => pure (none, s)
    | some bb => kmallocPages bound s bb size run

/-! ## kfree -/

/-- The loop of `kfree`: the record with the pages, and the one before it. -/
def kfreeLoop (big : Nat → Bigblock) (block : Nat) : Nat → Option Nat → Option Nat →
    Outcome (Option (Nat × Option Nat))
  | 0, _, _ => fuel
  | _ + 1, none, _ => pure none
  | bound + 1, some bb, last =>
      if (big bb).pages = block then pure (some (bb, last))
      else kfreeLoop big block bound (big bb).next (some bb)

/-- `*last = bb->next` -/
def unlinkBig (s : Heap) (bb : Nat) (last : Option Nat) : Heap :=
  match last with
  | none => { s with bigblocks := (s.big bb).next }
  | some last => s.setBig last { s.big last with next := (s.big bb).next }

/-- `kfree` -/
def kfree (bound : Nat) (s : Heap) (block : Nat) : Outcome Heap :=
  if block = 0 then pure s
  else do
    let found ← (if block % pageUnits = 0 then kfreeLoop s.big block bound s.bigblocks none else pure none)
    match found with
    | some (bb, last) =>
        let s := unlinkBig s bb last
        let s := slobFreePages s (s.big bb).order
        slobFree bound s bb sizeofBigblock
    | none => slobFree bound s (block - 1) 0

end Slob
end TriOS
