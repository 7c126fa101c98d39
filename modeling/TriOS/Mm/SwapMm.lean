import TriOS.Library.Bounded
import TriOS.Mm.SwapOut

/-!
# SwapMm — an address space whose pages are swapped

The only address space, `check_mm_struct`, over any page allocator and any swap manager. The page table is given by
what its directories, tables and entries are for: a directory or a table by the number of the first page that it maps,
divided by the number of these, and an entry by the number of its page. Every access of the processor goes through the
entry of its page, and through `do_pgfault` when the entry does not allow it. The disk does not fail.
-/

namespace TriOS
namespace SwapMm

open Outcome

/-- `struct swap_manager`, for the list of one address space. A victim that is not a page is `none`. -/
structure SwapManager (μ : Type) where
  mapSwappable : μ → Nat → Outcome μ
  swapOutVictim : Nat → μ → Outcome (Option Nat × μ)

/-- The state: `priv` is what the swap manager keeps, and `mem` and `swap` are the bytes of the frames and of the slots
of the swap device. -/
structure Sys (μ : Type) where
  priv : μ
  swapInitOk : Bool
  maxSwapOffset : Nat
  mmap : List Vma
  dirs : Nat → Option Nat
  tables : Nat → Option Nat
  pte : Nat → Pte
  ref : Nat → Int
  praVaddr : Nat → Nat
  free : Finset Nat
  mem : Nat → Nat → UInt8
  swap : Nat → Nat → UInt8

/-- The number of a page, of which the three indices are parts. -/
def vpn (la : Nat) : Nat := la / pgSize % nPteEntry ^ 3

section Code

variable {μ : Type} (pmm : PageAllocator) (sm : SwapManager μ)

/-! ## Page tables -/

/-- A new directory, with no table in it. -/
def Sys.newDir (s : Sys μ) (i page : Nat) : Sys μ :=
  { s with
    ref := Function.update s.ref page 1
    dirs := Function.update s.dirs i (some page)
    tables := fun j => if j / nPteEntry = i then none else s.tables j }

/-- A new table, with entries that are zero. -/
def Sys.newTable (s : Sys μ) (j page : Nat) : Sys μ :=
  { s with
    ref := Function.update s.ref page 1
    tables := Function.update s.tables j (some page)
    pte := fun v => if v / nPteEntry = j then 0 else s.pte v }

/-- One of the two levels of `get_pte`: whether there is a directory or a table afterwards. -/
def ensureTable (alloc : Sys μ → Outcome (Option Nat × Sys μ)) (s : Sys μ) (entry : Option Nat)
    (install : Sys μ → Nat → Sys μ) : Outcome (Bool × Sys μ) :=
  match entry with
  | some _ => pure (true, s)
  | none => do
      let r ← alloc s
      match r.1 with
      | none => pure (false, r.2)
      | some page => pure (true, install r.2 page)

/-- `get_pte`, where `alloc` is what it calls for a page that is missing. -/
def getPteWith (alloc : Sys μ → Outcome (Option Nat × Sys μ)) (s : Sys μ) (la : Nat) :
    Outcome (Option Nat × Sys μ) := do
  let i := vpn la / nPteEntry ^ 2
  let r ← ensureTable alloc s (s.dirs i) fun s page => s.newDir i page
  if r.1 = false then pure (none, r.2)
  else do
    let j := vpn la / nPteEntry
    let r ← ensureTable alloc r.2 (r.2.tables j) fun s page => s.newTable j page
    if r.1 = false then pure (none, r.2) else pure (some (vpn la), r.2)

/-- `get_pte` without `create` -/
def findPte (s : Sys μ) (la : Nat) : Outcome (Option Nat × Sys μ) := getPteWith (fun s => pure (none, s)) s la

/-! ## Pages -/

/-- `free_page` -/
def freePage (s : Sys μ) (page : Nat) : Outcome (Sys μ) := do
  assert (page ∈ pmm.pool)
  if page ∈ s.free then wrap
  else pure { s with ref := Function.update s.ref page 0, free := insert page s.free }

/-- `swap_offset` -/
def swapOffset (s : Sys μ) (entry : Pte) : Outcome Nat := do
  assert (0 < entry.slot ∧ entry.slot < s.maxSwapOffset)
  pure entry.slot

/-- `swap_out(mm, 1, 0)` -/
def swapOut (bound : Nat) (s : Sys μ) : Outcome (Sys μ) := do
  let r ← sm.swapOutVictim bound s.priv
  match r.1 with
  | none => wrap
  | some page => do
      let s := { s with priv := r.2 }
      let v := s.praVaddr page
      let p ← findPte s v
      match p.1 with
      | none => wrap
      | some ptep => do
          assert (s.pte ptep).Valid
          let entry := swapEntry (v / pgSize)
          let slot ← swapOffset s entry
          let s := { s with swap := Function.update s.swap slot (s.mem page) }
          freePage pmm { s with pte := Function.update s.pte ptep entry } page

/-- `alloc_page` -/
def allocPage : Nat → Sys μ → Outcome (Option Nat × Sys μ)
  | 0, _ => fuel
  | bound + 1, s =>
      match pmm.pick s.free with
      | some page => pure (some page, { s with free := s.free.erase page })
      | none =>
          if s.swapInitOk = false then pure (none, s)
          else do
            let s ← swapOut pmm sm bound s
            allocPage bound s

/-- `get_pte` with `create` -/
def getPte (bound : Nat) (s : Sys μ) (la : Nat) : Outcome (Option Nat × Sys μ) :=
  getPteWith (allocPage pmm sm bound) s la

/-- `swap_in` -/
def swapIn (bound : Nat) (s : Sys μ) (addr : Nat) : Outcome (Nat × Sys μ) := do
  let r ← allocPage pmm sm bound s
  match r.1 with
  | none => panic
  | some result => do
      let p ← findPte r.2 addr
      match p.1 with
      | none => wrap
      | some ptep => do
          let slot ← swapOffset r.2 (r.2.pte ptep)
          pure (result, { r.2 with mem := Function.update r.2.mem result (r.2.swap slot) })

/-- `page_remove_pte`, for an entry that is valid -/
def pageRemovePte (s : Sys μ) (ptep : Nat) : Outcome (Sys μ) := do
  let page := ptePpn (s.pte ptep)
  let s := { s with ref := Function.update s.ref page (s.ref page - 1) }
  let s ← if s.ref page = 0 then freePage pmm s page else pure s
  pure { s with pte := Function.update s.pte ptep 0 }

/-- `page_insert` -/
def pageInsert (bound : Nat) (s : Sys μ) (page la : Nat) (perm : UInt64) : Outcome (Int × Sys μ) := do
  let p ← getPte pmm sm bound s la
  match p.1 with
  | none => pure (-eNoMem, p.2)
  | some ptep => do
      let s := { p.2 with ref := Function.update p.2.ref page (p.2.ref page + 1) }
      let s ←
        if (s.pte ptep).Valid then
          if ptePpn (s.pte ptep) = page then pure { s with ref := Function.update s.ref page (s.ref page - 1) }
          else pageRemovePte pmm s ptep
        else pure s
      pure (0, { s with pte := Function.update s.pte ptep (pteCreate page (pteV ||| perm)) })

/-- `swap_map_swappable(mm, la, page, …)` and `page->pra_vaddr = la` -/
def mapSwappable (s : Sys μ) (la page : Nat) : Outcome (Sys μ) := do
  let priv ← sm.mapSwappable s.priv page
  pure { s with priv := priv, praVaddr := Function.update s.praVaddr page la }

/-- `pgdir_alloc_page` -/
def pgdirAllocPage (bound : Nat) (s : Sys μ) (la : Nat) (perm : UInt64) : Outcome (Option Nat × Sys μ) := do
  let r ← allocPage pmm sm bound s
  match r.1 with
  | none => pure (none, r.2)
  | some page => do
      let p ← pageInsert pmm sm bound r.2 page la perm
      if p.1 ≠ 0 then do
        let s ← freePage pmm p.2 page
        pure (none, s)
      else if p.2.swapInitOk then do
        let s ← mapSwappable sm p.2 la page
        assert (s.ref page = 1)
        pure (some page, s)
      else pure (some page, p.2)

/-- The permissions that `do_pgfault` gives. -/
def faultBits (flags : UInt32) : UInt64 := if flags &&& vmWrite ≠ 0 then pteU ||| (pteR ||| pteW) else pteU

/-- `do_pgfault` from the call of `get_pte` on. -/
def faultPage (bound : Nat) (s : Sys μ) (la : Nat) (perm : UInt64) : Outcome (Int × Sys μ) := do
  let p ← getPte pmm sm bound s la
  match p.1 with
  | none => wrap
  | some ptep =>
      if p.2.pte ptep = 0 then do
        let r ← pgdirAllocPage pmm sm bound p.2 la perm
        pure (if r.1 = none then -eNoMem else 0, r.2)
      else if p.2.swapInitOk = true then do
        let r ← swapIn pmm sm bound p.2 la
        let q ← pageInsert pmm sm bound r.2 r.1 la perm
        let s ← mapSwappable sm q.2 la r.1
        pure (0, s)
      else pure (-eNoMem, p.2)

/-- `do_pgfault` -/
def doPgfault (bound : Nat) (s : Sys μ) (addr : Nat) : Outcome (Int × Sys μ) :=
  match findVma s.mmap addr with
  | none => pure (-eInval, s)
  | some vma => faultPage pmm sm bound s (roundDown addr pgSize) (faultBits vma.flags)

/-! ## The processor -/

/-- The frame of an address, when there is one and its entry has the flag. -/
def Sys.translate (s : Sys μ) (va : Nat) (flag : UInt64) : Option Nat :=
  if s.dirs (vpn va / nPteEntry ^ 2) = none ∨ s.tables (vpn va / nPteEntry) = none then none
  else if s.pte (vpn va) &&& flag = 0 then none
  else (s.pte (vpn va)).frame

/-- An access: it is tried again after every page fault. -/
def withFrame : Nat → Sys μ → Nat → UInt64 → Outcome (Nat × Sys μ)
  | 0, _, _, _ => fuel
  | bound + 1, s, va, flag =>
      match s.translate va flag with
      | some f => pure (f, s)
      | none => do
          let r ← doPgfault pmm sm bound s va
          assert (r.1 = 0)
          withFrame bound r.2 va flag

/-- A load of a byte -/
def load (bound : Nat) (s : Sys μ) (va : Nat) : Outcome (UInt8 × Sys μ) := do
  let r ← withFrame pmm sm bound s va pteR
  pure (r.2.mem r.1 (va % pgSize), r.2)

/-- A store of a byte -/
def store (bound : Nat) (s : Sys μ) (va : Nat) (x : UInt8) : Outcome (Sys μ) := do
  let r ← withFrame pmm sm bound s va pteW
  pure { r.2 with mem := Function.update r.2.mem r.1 (Function.update (r.2.mem r.1) (va % pgSize) x) }

end Code

end SwapMm
end TriOS
