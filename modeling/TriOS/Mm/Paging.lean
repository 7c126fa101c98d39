import TriOS.Library.Outcome
import TriOS.Libs.Error
import TriOS.Mm.Pte

/-!
# pmm.c, vmm.c — page tables and address spaces

Physical memory is a set of page frames of 512 words each. A page frame is named by its number; a page
table, a directory and a page of data are all frames, so that nothing but the entries tells them apart.
An address space is named by the frame of its page directory. Everything here runs without a switch to
another process.
-/

namespace TriOS

open Outcome

/-- `npage`: the frames of the physical memory are below it. -/
def npage : Nat := 0x88000

/-- The page allocator as `alloc_page` sees it: `pool` are the frames that it manages, and `pick` is the
one that it hands out next, if any. -/
structure PageAllocator where
  pool : Finset Nat
  pick : Finset Nat → Option Nat
  pool_lt : ∀ f ∈ pool, f < npage
  pick_mem : ∀ free f, pick free = some f → f ∈ free

/-- `struct vma_struct` -/
structure Vma where
  start : Nat
  stop : Nat
  flags : UInt32
  deriving DecidableEq, Repr

/-- The memory. `ref` is `page->ref`, `mem f i` the word `i` of frame `f`, `swap` the swap device in
slots of one page; `pgdirs` are the page directories of the address spaces and `mmap` their lists
`mmap_list`. No address space is in `check_mm_struct`. -/
structure Vm where
  pmm : PageAllocator
  swapInitOk : Bool
  maxSwapOffset : Nat
  free : Finset Nat
  ref : Nat → Int
  mem : Nat → Nat → Pte
  swap : Nat → Nat → UInt64
  bootPgdir : Nat
  pgdirs : Finset Nat
  mmap : Nat → List Vma

/-! ## Pages -/

/-- `*ptep = x`, for the entry `i` of frame `f`. -/
def Vm.setWord (s : Vm) (f i : Nat) (x : UInt64) : Vm :=
  { s with mem := Function.update s.mem f (Function.update (s.mem f) i x) }

/-- `memcpy` or `memset` of a whole page. -/
def Vm.setPage (s : Vm) (f : Nat) (words : Nat → UInt64) : Vm :=
  { s with mem := Function.update s.mem f words }

/-- `set_page_ref` -/
def Vm.setPageRef (s : Vm) (f : Nat) (val : Int) : Vm :=
  { s with ref := Function.update s.ref f val }

/-- `alloc_page`. Without a free page it calls `swap_out(check_mm_struct)` once the swap manager is
initialised, and there the machine stops, since `check_mm_struct` is `NULL`. -/
def allocPage (s : Vm) : Outcome (Option Nat × Vm) :=
  match s.pmm.pick s.free with
  | some f => done (some f, { s with free := s.free.erase f })
  | none => if s.swapInitOk then panic else done (none, s)

/-- `free_page` -/
def freePage (s : Vm) (f : Nat) : Outcome Vm := do
  assert (f ∈ s.pmm.pool)
  if f ∈ s.free then wrap
  else pure { s.setPageRef f 0 with free := insert f s.free }

/-- `pa2page` and `KADDR` of the address in an entry. -/
def pde2page (pte : Pte) : Outcome Nat := do
  assert (ptePpn pte < npage)
  pure (ptePpn pte)

/-- `pte2page` -/
def pte2page (pte : Pte) : Outcome Nat := do
  assert pte.Valid
  pde2page pte

/-! ## Entries -/

/-- The entry of a table that has been made for a directory. -/
def tableEntry (page : Nat) : Pte :=
  pteCreate page (pteU ||| pteV)

/-- One of the two levels of `get_pte`: entry `i` of the directory `f` is valid afterwards, or there is
no table. -/
def ensureTable (s : Vm) (f i : Nat) (create : Bool) : Outcome (Bool × Vm) :=
  if (s.mem f i).Valid then pure (true, s)
  else if create then do
    match ← allocPage s with
    | (none, s) => pure (false, s)
    | (some page, s) =>
        let s := (s.setPageRef page 1).setPage page fun _ => 0
        pure (true, s.setWord f i (tableEntry page))
  else pure (false, s)

/-- `get_pte`: the entry is named by its frame and its index. -/
def getPte (s : Vm) (pgdir la : Nat) (create : Bool) : Outcome (Option (Nat × Nat) × Vm) := do
  match ← ensureTable s pgdir (pdx1 la) create with
  | (false, s) => pure (none, s)
  | (true, s) => do
      let pd0 ← pde2page (s.mem pgdir (pdx1 la))
      match ← ensureTable s pd0 (pdx0 la) create with
      | (false, s) => pure (none, s)
      | (true, s) => do
          let pt ← pde2page (s.mem pd0 (pdx0 la))
          pure (some (pt, ptx la), s)

/-- `page_ref_dec` and the `free_page` that follows it when no reference is left. -/
def dropRef (s : Vm) (page : Nat) : Outcome Vm :=
  let s := s.setPageRef page (s.ref page - 1)
  if s.ref page = 0 then freePage s page else pure s

/-- `page_remove_pte` -/
def pageRemovePte (s : Vm) (f i : Nat) : Outcome Vm :=
  if (s.mem f i).Valid then do
    let page ← pte2page (s.mem f i)
    let s ← dropRef s page
    pure (s.setWord f i 0)
  else pure s

/-- `page_remove` -/
def pageRemove (s : Vm) (pgdir la : Nat) : Outcome Vm := do
  match ← getPte s pgdir la false with
  | (none, s) => pure s
  | (some (f, i), s) => pageRemovePte s f i

/-- What `page_insert` does about the entry that it is going to replace. -/
def replacePte (s : Vm) (page f i : Nat) : Outcome Vm :=
  if (s.mem f i).Valid then do
    let p ← pte2page (s.mem f i)
    if p = page then pure (s.setPageRef page (s.ref page - 1)) else pageRemovePte s f i
  else pure s

/-- `page_insert` -/
def pageInsert (s : Vm) (pgdir page la : Nat) (perm : Perm) : Outcome (Int × Vm) := do
  match ← getPte s pgdir la true with
  | (none, s) => pure (-eNoMem, s)
  | (some (f, i), s) => do
      let s := s.setPageRef page (s.ref page + 1)
      let s ← replacePte s page f i
      pure (0, s.setWord f i (pteCreate page (pteV ||| perm.bits)))

/-- `pgdir_alloc_page` -/
def pgdirAllocPage (s : Vm) (pgdir la : Nat) (perm : Perm) : Outcome (Option Nat × Vm) := do
  match ← allocPage s with
  | (none, s) => pure (none, s)
  | (some page, s) => do
      let (ret, s) ← pageInsert s pgdir page la perm
      if ret ≠ 0 then do
        let s ← freePage s page
        pure (none, s)
      else pure (some page, s)

/-! ## Ranges -/

/-- The entry of an address is cleared, if its table exists; the second component is the next address. -/
def unmapStep (s : Vm) (pgdir start : Nat) : Outcome (Vm × Nat) := do
  match ← getPte s pgdir start false with
  | (none, s) => pure (s, roundDown (start + ptSize) ptSize)
  | (some (f, i), s) => do
      let s ← if s.mem f i ≠ 0 then pageRemovePte s f i else pure s
      pure (s, start + pgSize)

/-- The loop of `unmap_range`. -/
def unmapLoop : Nat → Vm → Nat → Nat → Nat → Outcome Vm
  | 0, _, _, _, _ => fuel
  | bound + 1, s, pgdir, start, stop => do
      let (s, start) ← unmapStep s pgdir start
      if start ≠ 0 ∧ start < stop then unmapLoop bound s pgdir start stop else pure s

/-- `unmap_range`. The loop makes a step of a page at least. -/
def unmapRange (s : Vm) (pgdir start stop : Nat) : Outcome Vm := do
  assert (start % pgSize = 0 ∧ stop % pgSize = 0)
  assert (UserAccess start stop)
  unmapLoop (stop / pgSize) s pgdir start stop

/-- The table of an entry of a level-0 directory is freed if no entry of the table is valid. -/
def freeTable (s : Vm) (pd0 i : Nat) : Outcome Vm := do
  let pt ← pde2page (s.mem pd0 i)
  if ∀ j < nPteEntry, ¬ (s.mem pt j).Valid then do
    let s ← freePage s pt
    pure (s.setWord pd0 i 0)
  else pure s

/-- The inner loop of `exit_range`; `freePd0` is `free_pd0`. -/
def exitInner : Nat → Vm → Nat → Nat → Nat → Nat → Bool → Outcome (Bool × Vm)
  | 0, _, _, _, _, _, _ => fuel
  | bound + 1, s, pd0, d0start, d1start, stop, freePd0 => do
      let valid := decide (s.mem pd0 (pdx0 d0start)).Valid
      let s ← if valid then freeTable s pd0 (pdx0 d0start) else pure s
      let d0start := d0start + ptSize
      if d0start ≠ 0 ∧ d0start < d1start + pdSize ∧ d0start < stop then
        exitInner bound s pd0 d0start d1start stop (freePd0 && valid)
      else pure (freePd0 && valid, s)

/-- A round of the outer loop of `exit_range`. -/
def exitStep (s : Vm) (pgdir d0start d1start stop : Nat) : Outcome Vm :=
  if (s.mem pgdir (pdx1 d1start)).Valid then do
    let pd0 ← pde2page (s.mem pgdir (pdx1 d1start))
    let (freePd0, s) ← exitInner nPteEntry s pd0 d0start d1start stop true
    if freePd0 then do
      let page ← pde2page (s.mem pgdir (pdx1 d1start))
      let s ← freePage s page
      pure (s.setWord pgdir (pdx1 d1start) 0)
    else pure s
  else pure s

/-- The outer loop of `exit_range`. -/
def exitLoop : Nat → Vm → Nat → Nat → Nat → Nat → Outcome Vm
  | 0, _, _, _, _, _ => fuel
  | bound + 1, s, pgdir, d0start, d1start, stop => do
      let s ← exitStep s pgdir d0start d1start stop
      let d1start := d1start + pdSize
      if d1start ≠ 0 ∧ d1start < stop then exitLoop bound s pgdir d1start d1start stop else pure s

/-- `exit_range` -/
def exitRange (s : Vm) (pgdir start stop : Nat) : Outcome Vm := do
  assert (start % pgSize = 0 ∧ stop % pgSize = 0)
  assert (UserAccess start stop)
  exitLoop nPteEntry s pgdir (roundDown start ptSize) (roundDown start pdSize) stop

/-- `copy_range` for a valid entry `pte` of the source. -/
def copyPage (s : Vm) (dest start : Nat) (pte : Pte) : Outcome (Int × Vm) := do
  match ← getPte s dest start true with
  | (none, s) => pure (-eNoMem, s)
  | (some _, s) => do
      let page ← pte2page pte
      match ← allocPage s with
      | (none, _) => panic
      | (some npage, s) => do
          let s := s.setPage npage (s.mem page)
          let (ret, s) ← pageInsert s dest npage start (userPerm pte)
          if ret ≠ 0 then do
            let s ← freePage s npage
            pure (ret, s)
          else pure (0, s)

/-- A round of the loop of `copy_range`, with the next address. -/
def copyStep (s : Vm) (dest source start : Nat) : Outcome (Int × Vm × Nat) := do
  match ← getPte s source start false with
  | (none, s) => pure (0, s, roundDown (start + ptSize) ptSize)
  | (some (f, i), s) =>
      if (s.mem f i).Valid then do
        let (ret, s) ← copyPage s dest start (s.mem f i)
        pure (ret, s, start + pgSize)
      else pure (0, s, start + pgSize)

/-- The loop of `copy_range`. -/
def copyLoop : Nat → Vm → Nat → Nat → Nat → Nat → Outcome (Int × Vm)
  | 0, _, _, _, _, _ => fuel
  | bound + 1, s, dest, source, start, stop => do
      let (ret, s, start) ← copyStep s dest source start
      if ret ≠ 0 then pure (ret, s)
      else if start ≠ 0 ∧ start < stop then copyLoop bound s dest source start stop
      else pure (0, s)

/-- `copy_range` -/
def copyRange (s : Vm) (dest source start stop : Nat) : Outcome (Int × Vm) := do
  assert (start % pgSize = 0 ∧ stop % pgSize = 0)
  assert (UserAccess start stop)
  copyLoop (stop / pgSize) s dest source start stop

/-! ## Address spaces -/

/-- `setup_pgdir`, with the empty list of a new address space. -/
def setupPgdir (s : Vm) : Outcome (Option Nat × Vm) := do
  match ← allocPage s with
  | (none, s) => pure (none, s)
  | (some page, s) =>
      let s := s.setPage page (s.mem s.bootPgdir)
      let mmap := Function.update s.mmap page []
      pure (some page, { s with pgdirs := insert page s.pgdirs, mmap := mmap })

/-- `find_vma`, without the cache of the last answer. -/
def findVma (vmas : List Vma) (addr : Nat) : Option Vma :=
  vmas.find? fun v => v.start ≤ addr ∧ addr < v.stop

/-- `check_vma_overlap` -/
def checkVmaOverlap (prev next : Vma) : Outcome Unit := do
  assert (prev.start < prev.stop)
  assert (prev.stop ≤ next.start)
  assert (next.start < next.stop)

/-- The place of `insert_vma_struct`: after the areas that start at or below the new one. -/
def vmasBefore (vmas : List Vma) (vma : Vma) : List Vma :=
  vmas.takeWhile fun v => v.start ≤ vma.start

/-- The areas after the place. -/
def vmasAfter (vmas : List Vma) (vma : Vma) : List Vma :=
  vmas.dropWhile fun v => v.start ≤ vma.start

/-- `insert_vma_struct` -/
def insertVmaStruct (vmas : List Vma) (vma : Vma) : Outcome (List Vma) := do
  assert (vma.start < vma.stop)
  (vmasBefore vmas vma).getLast?.elim (pure ()) fun prev => checkVmaOverlap prev vma
  (vmasAfter vmas vma).head?.elim (pure ()) fun next => checkVmaOverlap vma next
  pure (vmasBefore vmas vma ++ vma :: vmasAfter vmas vma)

/-- Put another list of areas into an address space. -/
def Vm.setMmap (s : Vm) (pgdir : Nat) (vmas : List Vma) : Vm :=
  { s with mmap := Function.update s.mmap pgdir vmas }

/-- `mm_map`; `kmallocOk` says whether `vma_create` has memory. -/
def mmMap (s : Vm) (pgdir addr len : Nat) (flags : UInt32) (kmallocOk : Bool) : Outcome (Int × Vm) := do
  let start := roundDown addr pgSize
  let stop := roundUp (addr + len) pgSize
  if ¬ UserAccess start stop then pure (-eInval, s)
  else if (findVma (s.mmap pgdir) start).any fun vma => vma.start < stop then pure (-eInval, s)
  else if kmallocOk then do
    let vmas ← insertVmaStruct (s.mmap pgdir) { start := start, stop := stop, flags := flags }
    pure (0, s.setMmap pgdir vmas)
  else pure (-eNoMem, s)

/-- The loop of `dup_mmap`, over the areas of the source from the last to the first; `kmallocOk` says for
which of them `vma_create` has memory. -/
def dupLoop (s : Vm) (dest source : Nat) (kmallocOk : Vma → Bool) : List Vma → Outcome (Int × Vm)
  | [] => pure (0, s)
  | vma :: vmas =>
      if kmallocOk vma then do
        let nvmas ← insertVmaStruct (s.mmap dest) vma
        let (ret, s) ← copyRange (s.setMmap dest nvmas) dest source vma.start vma.stop
        if ret ≠ 0 then pure (-eNoMem, s) else dupLoop s dest source kmallocOk vmas
      else pure (-eNoMem, s)

/-- `dup_mmap` -/
def dupMmap (s : Vm) (dest source : Nat) (kmallocOk : Vma → Bool) : Outcome (Int × Vm) :=
  dupLoop s dest source kmallocOk (s.mmap source).reverse

/-- `exit_mmap` -/
def exitMmap (s : Vm) (pgdir : Nat) : Outcome Vm := do
  let s ← (s.mmap pgdir).foldlM (fun s vma => unmapRange s pgdir vma.start vma.stop) s
  (s.mmap pgdir).foldlM (fun s vma => exitRange s pgdir vma.start vma.stop) s

/-- `put_pgdir` -/
def putPgdir (s : Vm) (pgdir : Nat) : Outcome Vm :=
  freePage s pgdir

/-- `mm_destroy`: the structures of the address space are freed. -/
def mmDestroy (s : Vm) (pgdir : Nat) : Vm :=
  { s with pgdirs := s.pgdirs.erase pgdir, mmap := Function.update s.mmap pgdir [] }

/-- The end of an address space, in `do_exit`, in `do_execve` and after a failure. -/
def teardown (s : Vm) (pgdir : Nat) : Outcome Vm := do
  let s ← exitMmap s pgdir
  let s ← putPgdir s pgdir
  pure (mmDestroy s pgdir)

/-- `copy_mm` without `CLONE_VM`; `mmOk` says whether `mm_create` has memory. The result is the page
directory of the child or an error. -/
def copyMm (s : Vm) (source : Nat) (mmOk : Bool) (kmallocOk : Vma → Bool) :
    Outcome (Except Int Nat × Vm) := do
  if mmOk then do
    match ← setupPgdir s with
    | (none, s) => pure (Except.error (-eNoMem), s)
    | (some pgdir, s) => do
        let (ret, s) ← dupMmap s pgdir source kmallocOk
        if ret ≠ 0 then do
          let s ← teardown s pgdir
          pure (Except.error ret, s)
        else pure (Except.ok pgdir, s)
  else pure (Except.error (-eNoMem), s)

/-! ## Page faults -/

/-- `VM_WRITE` -/
def vmWrite : UInt32 := 0x2

/-- The permissions of a page that `do_pgfault` maps. -/
def faultPerm (flags : UInt32) : Perm :=
  if flags &&& vmWrite ≠ 0 then { bits := pteU ||| pteR ||| pteW ||| pteV, flags := by decide }
  else { bits := pteU, flags := by decide }

/-- `swap_in`, for the entry of the page. -/
def swapIn (s : Vm) (entry : Pte) : Outcome (Nat × Vm) := do
  match ← allocPage s with
  | (none, _) => panic
  | (some page, s) => do
      let slot := (entry >>> 8).toNat
      assert (0 < slot ∧ slot < s.maxSwapOffset)
      pure (page, s.setPage page (s.swap slot))

/-- `do_pgfault` -/
def doPgfault (s : Vm) (pgdir addr : Nat) : Outcome (Int × Vm) := do
  match findVma (s.mmap pgdir) addr with
  | none => pure (-eInval, s)
  | some vma => do
      let perm := faultPerm vma.flags
      let la := roundDown addr pgSize
      match ← getPte s pgdir la true with
      | (none, s) => pure (-eNoMem, s)
      | (some (f, i), s) =>
          if s.mem f i = 0 then do
            match ← pgdirAllocPage s pgdir la perm with
            | (none, s) => pure (-eNoMem, s)
            | (some _, s) => pure (0, s)
          else if s.swapInitOk then do
            let (page, s) ← swapIn s (s.mem f i)
            let (_, s) ← pageInsert s pgdir page la perm
            pure (0, s)
          else pure (-eNoMem, s)

end TriOS
