import TriOS.Library.Requests
import TriOS.Mm.Teardown

/-!
# Fork — what a fork asks for, and what it has made so far

`forkRequests` lists what `copy_mm` asks for, from the entries of the parent alone: structures from
`kmalloc`, and pages for the directory, for the tables and for the copies. `Copied` describes the child when
a part of the list has been served.
-/

namespace TriOS

open Outcome Requests

/-- A request of a fork: the structure of the address space, the page directory, the structure of an area, a
level-0 directory, a page table, and the copy of a page. -/
inductive Request where
  | mm
  | root
  | area (vma : Vma)
  | dir (i : Nat)
  | table (sl : Nat)
  | page (w : Nat)
  deriving DecidableEq

/-- The request is for a page. -/
def Request.TakesPage : Request → Bool
  | mm => false
  | area _ => false
  | _ => true

/-- The free pages after a number of calls of `alloc_page`. -/
def PageAllocator.freeAfter (pmm : PageAllocator) (free : Finset Nat) : Nat → Finset Nat
  | 0 => free
  | n + 1 =>
      match pmm.pick (pmm.freeAfter free n) with
      | some page => (pmm.freeAfter free n).erase page
      | none => pmm.freeAfter free n

/-- The free pages after the requests `met`. -/
def Vm.freeAfter (s : Vm) (met : List Request) : Finset Nat :=
  s.pmm.freeAfter s.free (met.countP Request.TakesPage)

/-- The request `r` is granted after `met`. -/
def Grants (s : Vm) (mmOk : Bool) (kmallocOk : Vma → Bool) (met : List Request) : Request → Prop
  | Request.mm => mmOk = true
  | Request.area vma => kmallocOk vma = true
  | _ => s.pmm.pick (s.freeAfter met) ≠ none

/-- What the copy of a page asks for: the tables that the child does not have yet, and the page. -/
def pageRequests (met : List Request) (w : Nat) : List Request :=
  (if Request.dir (w / nPteEntry / nPteEntry) ∈ met then [] else [Request.dir (w / nPteEntry / nPteEntry)]) ++
    ((if Request.table (w / nPteEntry) ∈ met then [] else [Request.table (w / nPteEntry)]) ++
      [Request.page w])

/-- What the copies of some pages ask for. -/
def pagesRequests (met : List Request) : List Nat → List Request
  | [] => []
  | w :: ws => pageRequests met w ++ pagesRequests (met ++ pageRequests met w) ws

/-- The pages of a range that are present in an address space. -/
def Vm.presentPages (s : Vm) (d start stop : Nat) : List Nat :=
  (List.range' (start / pgSize) (stop / pgSize - start / pgSize)).filter fun w => (s.pte d w).Valid

/-- What the copy of some areas asks for. -/
def areasRequests (s : Vm) (source : Nat) (met : List Request) : List Vma → List Request
  | [] => []
  | vma :: vmas =>
      let rs := Request.area vma ::
        pagesRequests (met ++ [Request.area vma]) (s.presentPages source vma.start vma.stop)
      rs ++ areasRequests s source (met ++ rs) vmas

/-- What a fork asks for: the areas are copied from the last to the first. -/
def forkRequests (s : Vm) (source : Nat) : List Request :=
  Request.mm :: Request.root ::
    areasRequests s source [Request.mm, Request.root] (s.mmap source).reverse

/-- The areas of the child. -/
def areasOf (met : List Request) : List Vma :=
  (met.filterMap fun r => match r with | Request.area vma => some vma | _ => none).reverse

/-- The slots of the child that have a table. -/
def tablesOf (met : List Request) : Finset Nat :=
  (met.filterMap fun r => match r with | Request.table sl => some sl | _ => none).toFinset

/-! ## What a fork should do -/

/-- What a process sees at a page: the words of a page that is present or swapped out, and nothing where no
page has been touched. -/
def Vm.view (s : Vm) (d w : Nat) : Option (Nat → UInt64) :=
  if (s.pte d w).Valid then some (s.mem (ptePpn (s.pte d w)))
  else if s.pte d w = 0 then none
  else some (s.swap (s.pte d w >>> 8).toNat)

/-- The address spaces that there are stay as they are. -/
structure SpacesKept (s t : Vm) : Prop where
  mmap : ∀ e ∈ s.pgdirs, t.mmap e = s.mmap e
  pte : ∀ e ∈ s.pgdirs, ∀ w < userPages, t.pte e w = s.pte e w
  mem : ∀ e ∈ s.pgdirs, ∀ w < userPages, ∀ f, s.page e w = some f → t.mem f = s.mem f
  swap : t.swap = s.swap

/-- The child `d` is a copy of the address space `source`, and no page of it belongs to another one. -/
structure CopyOf (s : Vm) (source : Nat) (t : Vm) (d : Nat) : Prop where
  kept : SpacesKept s t
  mmap : t.mmap d = s.mmap source
  view : ∀ w, InVmas (s.mmap source) w → t.view d w = s.view source w
  perm : ∀ w, InVmas (s.mmap source) w → (s.pte source w).Valid →
    t.pte d w &&& pteUser = s.pte source w &&& pteUser
  own : ∀ w < userPages, ∀ f, t.page d w = some f → t.maps f = {(d, w)}

/-- A fork either makes a copy or reports an error, after which nothing has changed. -/
def ForkOk (s : Vm) (source : Nat) : Outcome (Except Int Nat × Vm) → Prop
  | done (Except.ok d, t) => CopyOf s source t d
  | done (Except.error _, t) => SpacesKept s t ∧ t.pgdirs = s.pgdirs ∧ t.free = s.free
  | _ => False

/-- No page of an area of the address space is swapped out. -/
def Vm.AllIn (s : Vm) (source : Nat) : Prop :=
  ∀ w, InVmas (s.mmap source) w → (s.pte source w).Valid ∨ s.pte source w = 0

/-- The refusal of the request is reported as an error: it is none of the copy of a page, and no page is
asked for once `swap_init` has been called. -/
def Soft (s : Vm) : Request → Prop
  | Request.mm => True
  | Request.area _ => True
  | Request.page _ => False
  | _ => s.swapInitOk = false

/-- The condition for a fork: all requests are granted and nothing is swapped out, or the first refusal is
reported as an error and the areas that the child has by then are tidy. -/
def ForkFits (s : Vm) (source : Nat) (mmOk : Bool) (kmallocOk : Vma → Bool) : Prop :=
  (Granted (Grants s mmOk kmallocOk) [] (forkRequests s source) ∧ s.AllIn source) ∨
    ∃ met r rest, forkRequests s source = met ++ r :: rest ∧ Granted (Grants s mmOk kmallocOk) [] met ∧
      ¬ Grants s mmOk kmallocOk met r ∧ Soft s r ∧
      ∀ i, Request.dir i ∈ met → Tidy (tablesOf met) i (areasOf met)

/-- The parent of a fork: the areas are user areas in ascending order. -/
structure Vm.Parent (s : Vm) (source : Nat) : Prop where
  mem : source ∈ s.pgdirs
  ok : ∀ vma ∈ s.mmap source, vma.Ok
  sorted : (s.mmap source).Pairwise fun u v => u.stop ≤ v.start

/-! ## The child so far -/

/-- What a frame that was free may be used for in the child. -/
def ChildUse (d f : Nat) (k : FrameKind) : Prop :=
  f = d ∧ k = FrameKind.root ∨ (∃ i, k = FrameKind.dir d i) ∨ (∃ sl, k = FrameKind.table d sl) ∨
    k = FrameKind.data

/-- `t` is `s₀` after the requests `met` of a fork of `source` have been served for the child `d`. -/
structure Copied (kind : Nat → FrameKind) (s₀ : Vm) (source d : Nat) (met : List Request) (t : Vm) :
    Prop where
  child : kind d = FrameKind.free
  pmm : t.pmm = s₀.pmm
  swapInitOk : t.swapInitOk = s₀.swapInitOk
  swap : t.swap = s₀.swap
  pgdirs : t.pgdirs = insert d s₀.pgdirs
  mmap : t.mmap = Function.update s₀.mmap d (areasOf met)
  free : t.free = s₀.freeAfter met
  frames : ∃ kind', Frames kind' t ∧
    ∀ f, kind' f = kind f ∨ kind f = FrameKind.free ∧ ChildUse d f (kind' f)
  dirs : ∀ i < userDirs, t.next d i ≠ none ↔ Request.dir i ∈ met
  tables : ∀ sl < userTables, t.pt d sl ≠ none ↔ Request.table sl ∈ met
  tableDirs : ∀ sl < userTables, Request.table sl ∈ met → Request.dir (sl / nPteEntry) ∈ met
  others : ∀ e ∈ s₀.pgdirs, ∀ w < userPages, t.pte e w = s₀.pte e w
  copy : ∀ w < userPages, Request.page w ∈ met → ∃ f g, s₀.page source w = some g ∧ f < npage ∧
    t.pte d w = pteCreate f (pteV ||| (userPerm (s₀.pte source w)).bits) ∧ t.mem f = s₀.mem g
  blank : ∀ w < userPages, Request.page w ∉ met → t.pte d w = 0
  inside : ∀ w, Request.page w ∈ met → InVmas (areasOf met) w
  own : ∀ w < userPages, ∀ f, t.page d w = some f → t.maps f = {(d, w)}
  mem : ∀ g, kind g = FrameKind.data → t.mem g = s₀.mem g

end TriOS
