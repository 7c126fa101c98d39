import TriOS.Library.Outcome
import TriOS.Library.Transition
import TriOS.Libs.List

/-!
# default_pmm.c — the first-fit page manager

The functions of `kern/mm/default_pmm.c`. A page is its index in the array `pages`, so that the
order of addresses and the pointer sums `page + n` are those of `Nat`. A list node is `some p` for
the field `page_link` of page `p` (`le2page`) and `none` for `free_list`. `property` and `nr_free`
are plain numbers: no machine has `2 ^ 32` pages.

Every loop that walks the free list takes a bound on its iterations, and ends in `fuel` if the bound
is reached.
-/

namespace TriOS

open CircularList

/-- The fields of `struct Page` that the page manager uses; the two flags are bits of `flags`. -/
structure Page where
  ref : Int
  reserved : Bool
  propertyFlag : Bool
  property : Nat
  deriving DecidableEq, Repr

/-- The array `pages` and the variable `free_area`. -/
structure Pmm where
  page : Nat → Page
  freeList : Links (Option Nat)
  nrFree : Nat

/-- Replace one page descriptor. -/
def Pmm.setPage (s : Pmm) (p : Nat) (v : Page) : Pmm :=
  { s with page := Function.update s.page p v }

/-- `default_init` -/
def defaultInit (s : Pmm) : Pmm :=
  { s with freeList := listInit s.freeList none, nrFree := 0 }

/-- The loop over the pages `base`, …, `base + n - 1` that starts `default_init_memmap` and
`default_free_pages`: each page must pass the assertion `ok` and is then changed by `clear`. -/
def resetPages (ok : Page → Bool) (clear : Page → Page) (page : Nat → Page) (base : Nat) :
    Nat → Outcome (Nat → Page)
  | 0 => Outcome.done page
  | n + 1 => do
      Outcome.assert (ok (page base) = true)
      resetPages ok clear (Function.update page base (clear (page base))) (base + 1) n

/-- The loop that looks for the place of `base` in the address order. When `base` is above the last
block it is linked in and the loop goes on from the new node. -/
def insertLoop (base : Nat) : Nat → Links (Option Nat) → Option Nat →
    Outcome (Links (Option Nat))
  | 0, _, _ => Outcome.fuel
  | fuel + 1, m, le =>
      match listNext m le with
      | none => Outcome.done m
      | some page =>
          if base < page then
            Outcome.done (listAddBefore m (some page) (some base))
          else if listNext m (some page) = none then
            insertLoop base fuel (listAdd m (some page) (some base)) (some page)
          else
            insertLoop base fuel m (some page)

/-- Link `base` into the free list: the statement that `default_init_memmap` and
`default_free_pages` share. -/
def insertByAddress (fuel : Nat) (m : Links (Option Nat)) (base : Nat) :
    Outcome (Links (Option Nat)) :=
  if listEmpty m none then
    Outcome.done (listAdd m none (some base))
  else
    insertLoop base fuel m none

/-- `default_init_memmap` -/
def defaultInitMemmap (fuel : Nat) (s : Pmm) (base n : Nat) : Outcome Pmm := do
  Outcome.assert (n > 0)
  let page ← resetPages (fun p => p.reserved)
    (fun _ => { ref := 0, reserved := false, propertyFlag := false, property := 0 })
    s.page base n
  let page := Function.update page base
    { page base with property := n, propertyFlag := true }
  let freeList ← insertByAddress fuel s.freeList base
  pure { page := page, freeList := freeList, nrFree := s.nrFree + n }

/-- The loop of `default_alloc_pages`: the first block with at least `n` pages. -/
def findFit (s : Pmm) (n : Nat) : Nat → Option Nat → Outcome (Option Nat)
  | 0, _ => Outcome.fuel
  | fuel + 1, le =>
      match listNext s.freeList le with
      | none => Outcome.done none
      | some p =>
          if (s.page p).property ≥ n then
            Outcome.done (some p)
          else
            findFit s n fuel (some p)

/-- The body of `default_alloc_pages` once `page` is found: cut `n` pages off its front. -/
def carve (s : Pmm) (page n : Nat) : Pmm :=
  let prev := listPrev s.freeList (some page)
  let s1 := { s with freeList := listDel s.freeList (some page) }
  let s2 :=
    if (s1.page page).property > n then
      let p := page + n
      let s1 := s1.setPage p
        { s1.page p with property := (s1.page page).property - n, propertyFlag := true }
      { s1 with freeList := listAdd s1.freeList prev (some p) }
    else s1
  let s3 := { s2 with nrFree := s2.nrFree - n }
  s3.setPage page { s3.page page with propertyFlag := false }

/-- `default_alloc_pages` -/
def defaultAllocPages (fuel : Nat) (s : Pmm) (n : Nat) : Outcome (Option Nat × Pmm) := do
  Outcome.assert (n > 0)
  if n > s.nrFree then
    pure (none, s)
  else do
    let page ← findFit s n fuel none
    match page with
    | none => pure (none, s)
    | some page => pure (some page, carve s page n)

/-- `p->property += q->property; ClearPageProperty(q); list_del(&(q->page_link))`: the statements
that both merges of `default_free_pages` consist of. -/
def absorb (s : Pmm) (p q : Nat) : Pmm :=
  let s1 := s.setPage p
    { s.page p with property := (s.page p).property + (s.page q).property }
  let s2 := s1.setPage q { s1.page q with propertyFlag := false }
  { s2 with freeList := listDel s2.freeList (some q) }

/-- The first merge of `default_free_pages`, with the block before `base`. It returns the head of
the block that now holds `base`. -/
def mergePrev (s : Pmm) (base : Nat) : Nat × Pmm :=
  match listPrev s.freeList (some base) with
  | none => (base, s)
  | some p =>
      if p + (s.page p).property = base then (p, absorb s p base) else (base, s)

/-- The second merge of `default_free_pages`, with the block after `base`. -/
def mergeNext (s : Pmm) (base : Nat) : Pmm :=
  match listNext s.freeList (some base) with
  | none => s
  | some p =>
      if base + (s.page base).property = p then absorb s base p else s

/-- `default_free_pages` -/
def defaultFreePages (fuel : Nat) (s : Pmm) (base n : Nat) : Outcome Pmm := do
  Outcome.assert (n > 0)
  let page ← resetPages (fun p => !p.reserved && !p.propertyFlag)
    (fun p => { p with ref := 0, reserved := false, propertyFlag := false })
    s.page base n
  let page := Function.update page base
    { page base with property := n, propertyFlag := true }
  let freeList ← insertByAddress fuel s.freeList base
  let s1 : Pmm := { page := page, freeList := freeList, nrFree := s.nrFree + n }
  let (base, s2) := mergePrev s1 base
  pure (mergeNext s2 base)

end TriOS
