import TriOS.Library.Intervals
import TriOS.Mm.Paging

/-!
# vmm.c — the areas of an address space, and the checks of user memory

An address space with its list of areas, the last answer of `find_vma` and the number of the areas. Addresses
and sizes are 64-bit words, given by their values. An area is named by its value: two areas of one list differ
in where they begin.
-/

namespace TriOS

open Outcome

/-- `VM_READ` -/
def vmRead : UInt32 := 0x1

/-- `VM_STACK` -/
def vmStack : UInt32 := 0x8

/-- `KERNBASE` -/
def kernBase : Nat := 0xFFFFFFFFC0200000

/-- `KERNTOP` -/
def kernTop : Nat := 0xFFFFFFFFC8000000

/-- `KERN_ACCESS` -/
def KernAccess (start stop : Nat) : Prop :=
  kernBase ≤ start ∧ start < stop ∧ stop ≤ kernTop

instance (start stop : Nat) : Decidable (KernAccess start stop) :=
  inferInstanceAs (Decidable (_ ∧ _ ∧ _))

/-- `struct mm_struct`, as far as it is about areas. -/
structure MmStruct where
  mmapList : List Vma
  mmapCache : Option Vma
  mapCount : Nat
  deriving DecidableEq

/-- `mm_create` -/
def mmCreate : MmStruct :=
  { mmapList := [], mmapCache := none, mapCount := 0 }

/-- `vma->vm_start <= addr && addr < vma->vm_end` -/
def Vma.Holds (vma : Vma) (addr : Nat) : Prop := Intervals.Contains Vma.start Vma.stop vma addr

instance (vma : Vma) (addr : Nat) : Decidable (vma.Holds addr) :=
  inferInstanceAs (Decidable (Intervals.Contains Vma.start Vma.stop vma addr))

/-- `find_vma`, with the address space that remembers the answer. -/
def MmStruct.findVma (mm : MmStruct) (addr : Nat) : Option Vma × MmStruct :=
  match (mm.mmapCache.filter fun vma => vma.Holds addr).or (TriOS.findVma mm.mmapList addr) with
  | some vma => (some vma, { mm with mmapCache := some vma })
  | none => (none, mm)

/-! ## New areas -/

/-- `insert_vma_struct` -/
def MmStruct.insertVma (mm : MmStruct) (vma : Vma) : Outcome MmStruct := do
  let vmas ← insertVmaStruct mm.mmapList vma
  pure { mm with mmapList := vmas, mapCount := mm.mapCount + 1 }

/-- `mm_map`; `kmallocOk` says whether `vma_create` has memory. -/
def MmStruct.map (mm : MmStruct) (addr len : Nat) (flags : UInt32) (kmallocOk : Bool) : Outcome (Int × MmStruct) :=
  let start := roundDown addr pgSize
  let stop := roundUp ((addr + len) % 2 ^ 64) pgSize
  if ¬ UserAccess start stop then pure (-eInval, mm)
  else
    let (found, mm) := mm.findVma start
    if found.any fun vma => vma.start < stop then pure (-eInval, mm)
    else if kmallocOk then do
      let mm ← mm.insertVma { start := start, stop := stop, flags := flags }
      pure (0, mm)
    else pure (-eNoMem, mm)

/-- The loop of `dup_mmap` over the areas of the source, from the last to the first. For each of them `grants`
says whether `vma_create` has memory, and whether `copy_range` succeeds. -/
def MmStruct.dupLoop (mm : MmStruct) (grants : Vma → Bool × Bool) : List Vma → Outcome (Int × MmStruct)
  | [] => pure (0, mm)
  | vma :: vmas =>
      if (grants vma).1 then do
        let mm ← mm.insertVma vma
        if (grants vma).2 then mm.dupLoop grants vmas else pure (-eNoMem, mm)
      else pure (-eNoMem, mm)

/-- `dup_mmap`, as far as it is about areas. -/
def MmStruct.dupMmap (to_ source : MmStruct) (grants : Vma → Bool × Bool) : Outcome (Int × MmStruct) :=
  to_.dupLoop grants source.mmapList.reverse

/-! ## User memory -/

/-- The loop of `user_mem_check`. -/
def userMemLoop (write : Bool) : Nat → MmStruct → Nat → Nat → Outcome (Bool × MmStruct)
  | 0, _, _, _ => fuel
  | bound + 1, mm, start, stop =>
      if start < stop then
        match mm.findVma start with
        | (none, mm) => pure (false, mm)
        | (some vma, mm) =>
            if start < vma.start then pure (false, mm)
            else if vma.flags &&& (if write then vmWrite else vmRead) = 0 then pure (false, mm)
            else if write = true ∧ vma.flags &&& vmStack ≠ 0 ∧ start < (vma.start + pgSize) % 2 ^ 64 then
              pure (false, mm)
            else userMemLoop write bound mm vma.stop stop
      else pure (true, mm)

/-- `user_mem_check` -/
def userMemCheck (bound : Nat) (mm : Option MmStruct) (addr len : Nat) (write : Bool) :
    Outcome (Bool × Option MmStruct) :=
  let stop := (addr + len) % 2 ^ 64
  match mm with
  | none => pure (decide (KernAccess addr stop), none)
  | some mm =>
      if ¬ UserAccess addr stop then pure (false, some mm)
      else do
        let (ok, mm) ← userMemLoop write bound mm addr stop
        pure (ok, some mm)

/-- `strnlen` -/
def strnlen (mem : Nat → UInt8) (s len : Nat) : Nat :=
  (List.range len).findIdx fun i => mem (s + i) = 0

/-- `memcpy` into a buffer, from its byte `at_` on. -/
def memcpyTo (dst : Nat → UInt8) (at_ : Nat) (mem : Nat → UInt8) (src n : Nat) : Nat → UInt8 := fun i =>
  if at_ ≤ i ∧ i < at_ + n then mem (src + (i - at_)) else dst i

/-- What `copy_string` works on: the address space, the buffer, and the ranges of user memory that it has read,
as addresses with lengths. -/
structure StringCopy where
  mm : Option MmStruct
  dst : Nat → UInt8
  reads : List (Nat × Nat)

/-- The bytes that `strnlen` looks at. -/
def StringCopy.scan (c : StringCopy) (src part alen : Nat) : StringCopy :=
  { c with reads := (src, min (alen + 1) part) :: c.reads }

/-- `memcpy` from user memory. -/
def StringCopy.copy (c : StringCopy) (mem : Nat → UInt8) (at_ src n : Nat) : StringCopy :=
  { c with dst := memcpyTo c.dst at_ mem src n, reads := (src, n) :: c.reads }

/-- The loop of `copy_string`; `at_` is how far `dst` has moved. -/
def copyStringLoop (mem : Nat → UInt8) : Nat → StringCopy → Nat → Nat → Nat → Nat → Outcome (Bool × StringCopy)
  | 0, _, _, _, _, _ => fuel
  | bound + 1, c, at_, src, maxn, part => do
      let part := if maxn < part then maxn else part
      let (ok, mm) ← userMemCheck bound c.mm src part false
      let c := { c with mm := mm }
      if ok = false then pure (false, c)
      else
        let alen := strnlen mem src part
        let c := c.scan src part alen
        if alen < part then pure (true, c.copy mem at_ src (alen + 1))
        else if part = maxn then pure (false, c)
        else
          copyStringLoop mem bound (c.copy mem at_ src part) (at_ + part) ((src + part) % 2 ^ 64) (maxn - part) pgSize

/-- `copy_string`, of the memory `mem` into the buffer `dst`. -/
def copyString (mem : Nat → UInt8) (bound : Nat) (mm : Option MmStruct) (dst : Nat → UInt8) (src maxn : Nat) :
    Outcome (Bool × StringCopy) :=
  let part := (roundDown ((src + pgSize) % 2 ^ 64) pgSize + 2 ^ 64 - src) % 2 ^ 64
  copyStringLoop mem bound { mm := mm, dst := dst, reads := [] } 0 src maxn part

end TriOS
