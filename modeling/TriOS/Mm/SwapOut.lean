import TriOS.Libs.List
import TriOS.Mm.PageFault

/-!
# swap.c — pages that are swapped out

`alloc_pages` with `swap_out` and the list of `swap_fifo.c`. The slot of a page on the swap device is made from its
address, and the page that goes next is the first one of the only list, whatever address space it is in.
-/

namespace TriOS

open CircularList Outcome Transition

/-- The head of `pra_list_head`, and the `pra_page_link` of a page. -/
inductive PraNode where
  | head
  | page (p : Nat)
  deriving DecidableEq, Repr

/-- `pmm_manager->alloc_pages`: the pages for a request of `n` pages, if there are any. One page is found as long
as one is free. -/
structure PmmManager where
  alloc : Nat → Finset Nat → Option (Finset Nat)
  alloc_one : ∀ free, free.Nonempty → (alloc 1 free).isSome = true

/-- The memory as far as swapping is concerned. An address space is named by its `mm_struct`; `smPriv` says for which
`sm_priv` is the list, and `pte` is what `get_pte` finds for a page. `failing` says which of the next writes to the
device fail. -/
structure SwapSys where
  pmm : PmmManager
  swapInitOk : Bool
  maxSwapOffset : Nat
  checkMm : Option Nat
  smPriv : Nat → Bool
  links : Links PraNode
  praVaddr : Nat → Nat
  pte : Nat → Nat → Option Pte
  free : Finset Nat
  mem : Nat → Nat → UInt64
  swap : Nat → Nat → UInt64
  failing : List Bool
  maxSwapOffset_lt : maxSwapOffset < 2 ^ 24

/-! ## The code -/

/-- `(page->pra_vaddr/PGSIZE+1)<<8`, of the number of the page. -/
def swapEntry (v : Nat) : Pte := UInt64.ofNat (v + 1) <<< 8

/-- An `mm_struct` that is used. -/
def derefMm : Option Nat → Outcome Nat
  | some mm => done mm
  | none => wrap

/-- `_fifo_map_swappable` -/
def fifoMapSwappable (s : SwapSys) (mm page : Nat) : Outcome SwapSys := do
  assert (s.smPriv mm = true)
  pure { s with links := listAddBefore s.links PraNode.head (PraNode.page page) }

/-- `_fifo_swap_out_victim`. The head of the list is the link of no page. -/
def fifoSwapOutVictim (s : SwapSys) (mm : Nat) : Outcome (Nat × SwapSys) := do
  assert (s.smPriv mm = true)
  let entry := listNext s.links PraNode.head
  let s := { s with links := listDel s.links entry }
  match entry with
  | PraNode.head => wrap
  | PraNode.page p => pure (p, s)

/-- `swapfs_write`, which says whether the device has failed. -/
def swapfsWrite (s : SwapSys) (entry : Pte) (page : Nat) : Outcome (Bool × SwapSys) := do
  assert (0 < entry.slot ∧ entry.slot < s.maxSwapOffset)
  let failed := s.failing.headD false
  let s := { s with failing := s.failing.tail }
  pure (failed, if failed then s else { s with swap := Function.update s.swap entry.slot (s.mem page) })

/-- `*ptep = entry`, for the page `v` of an address space. -/
def SwapSys.setPte (s : SwapSys) (mm v : Nat) (entry : Pte) : SwapSys :=
  { s with pte := Function.update s.pte mm (Function.update (s.pte mm) v (some entry)) }

/-- A round of `swap_out`. -/
def swapOutStep (s : SwapSys) (mm : Option Nat) : Outcome SwapSys := do
  let mm ← derefMm mm
  let (page, s) ← fifoSwapOutVictim s mm
  let v := s.praVaddr page / pgSize
  match s.pte mm v with
  | none => wrap
  | some pte => do
      assert pte.Valid
      let (failed, s) ← swapfsWrite s (swapEntry v) page
      if failed then fifoMapSwappable s mm page
      else
        let s := s.setPte mm v (swapEntry v)
        if page ∈ s.free then wrap
        else pure { s with free := insert page s.free }

/-- `swap_out` -/
def swapOut (s : SwapSys) (mm : Option Nat) : Nat → Outcome SwapSys
  | 0 => pure s
  | n + 1 => do
      let s ← swapOutStep s mm
      swapOut s mm n

/-- `alloc_pages`; the bound is on the rounds of its loop. -/
def allocPages : Nat → SwapSys → Nat → Outcome (Option (Finset Nat) × SwapSys)
  | 0, _, _ => fuel
  | bound + 1, s, n => do
      assert (0 < n)
      match s.pmm.alloc n s.free with
      | some pages => pure (some pages, { s with free := s.free \ pages })
      | none =>
          if 1 < n ∨ s.swapInitOk = false then pure (none, s)
          else do
            let s ← swapOut s s.checkMm n
            allocPages bound s n

/-! ## Slots -/

/-- The entry of a page that is swapped out. -/
def Pte.Swapped (pte : Pte) : Prop := pte ≠ 0 ∧ ¬ pte.Valid

/-- The slots of the pages that are swapped out are slots of the device, and no two pages have the same. -/
structure SwapSys.SlotsValid (s : SwapSys) : Prop where
  bounds : ∀ mm v pte, s.pte mm v = some pte → pte.Swapped → 0 < pte.slot ∧ pte.slot < s.maxSwapOffset
  apart : ∀ mm v pte mm' v' pte', s.pte mm v = some pte → pte.Swapped → s.pte mm' v' = some pte' → pte'.Swapped →
    (mm, v) ≠ (mm', v') → pte.slot ≠ pte'.slot

/-- The page can be evicted: it is the one that its address space has at its address, the number of the page is that
of a slot, and no other address space has a page out at the address. -/
structure SwapSys.Victim (s : SwapSys) (mm page : Nat) : Prop where
  mapped : ∃ pte, s.pte mm (s.praVaddr page / pgSize) = some pte ∧ pte.frame = some page
  taken : page ∉ s.free
  slot : s.praVaddr page / pgSize + 1 < s.maxSwapOffset
  alone : ∀ mm' pte, mm' ≠ mm → s.pte mm' (s.praVaddr page / pgSize) = some pte → ¬ pte.Swapped

/-- The first page of the list can be evicted, and the next ones as far as the device fails. -/
def SwapSys.CanEvict (s : SwapSys) (mm : Nat) : List Bool → Links PraNode → Prop
  | [], links => ∃ p, listNext links PraNode.head = PraNode.page p ∧ s.Victim mm p
  | failed :: failing, links => ∃ p, listNext links PraNode.head = PraNode.page p ∧ s.Victim mm p ∧
      (failed = true → s.CanEvict mm failing
        (listAddBefore (listDel links (PraNode.page p)) PraNode.head (PraNode.page p)))

/-- When `alloc_pages` may be called: there are pages, or the request does not evict any, or the address space of
`check_mm_struct` has pages that can be evicted. -/
def SwapSys.MayAlloc (s : SwapSys) (n : Nat) : Prop :=
  0 < n ∧ ((s.pmm.alloc n s.free).isSome = true ∨ 1 < n ∨ s.swapInitOk = false ∨
    ∃ mm, s.checkMm = some mm ∧ s.smPriv mm = true ∧ s.CanEvict mm s.failing s.links)

/-- A call of `alloc_pages`, or anything else that the kernel does. -/
inductive SwapOp where
  | alloc (n : Nat)
  | other
  deriving DecidableEq, Repr

/-- Nothing but `swap_out` makes the entry of a page that is swapped out: the others leave it, replace it or give
up its address space. -/
structure SwapSys.Others (s t : SwapSys) : Prop where
  maxSwapOffset : t.maxSwapOffset = s.maxSwapOffset
  swapped : ∀ mm v pte, t.pte mm v = some pte → pte.Swapped → s.pte mm v = some pte

/-- A step of the system. -/
def SwapStep (s : SwapSys) : SwapOp → SwapSys → Prop
  | SwapOp.alloc n, t => ∃ bound r, allocPages bound s n = done (r, t)
  | SwapOp.other, t => s.Others t

/-- The steps that are within the condition. -/
def SwapSys.Allowed (s : SwapSys) : SwapOp → Prop
  | SwapOp.alloc n => s.MayAlloc n
  | SwapOp.other => True

variable {s t u : SwapSys} {mm mm' v n bound page : Nat} {pte : Pte} {links : Links PraNode} {failing : List Bool}
  {ops : List SwapOp}

/-! ## Entries -/

theorem slot_swapEntry (hv : v + 1 < 2 ^ 24) : (swapEntry v).slot = v + 1 := by
  have hleft : (UInt64.ofNat (v + 1) <<< 8).toNat = (v + 1) * 256 := by
    have height : UInt64.toNat 8 % 64 = 8 := rfl
    rw [UInt64.toNat_shiftLeft, UInt64.toNat_ofNat_of_lt' (hv.trans (by decide)), Nat.shiftLeft_eq, height]
    exact Nat.mod_eq_of_lt (by omega)
  unfold Pte.slot swapEntry
  rw [UInt64.toNat_shiftRight, hleft, Nat.shiftRight_eq_div_pow]
  exact Nat.mul_div_cancel _ (by decide)

theorem swapped_swapEntry (hv : v + 1 < 2 ^ 24) : (swapEntry v).Swapped := by
  constructor
  · intro hzero
    have hslot := slot_swapEntry hv
    rw [hzero] at hslot
    cases hslot
  · unfold Pte.Valid
    rw [not_not]
    apply UInt64.toNat_inj.1
    unfold swapEntry
    rw [UInt64.toNat_and, UInt64.toNat_shiftLeft, UInt64.toNat_ofNat_of_lt' (hv.trans (by decide)), Nat.shiftLeft_eq]
    have hone : pteV.toNat = 1 := rfl
    have height : UInt64.toNat 8 % 64 = 8 := rfl
    have hzero : UInt64.toNat 0 = 0 := rfl
    rw [hone, height, hzero, Nat.and_one_is_mod]
    omega

/-- What every entry of a page that is swapped out is like. -/
structure SwapSys.SlotsInv (s : SwapSys) : Prop where
  entry : ∀ mm v pte, s.pte mm v = some pte → pte.Swapped → pte = swapEntry v ∧ v + 1 < s.maxSwapOffset
  alone : ∀ mm mm' v pte pte', s.pte mm v = some pte → pte.Swapped → s.pte mm' v = some pte' → pte'.Swapped → mm = mm'

theorem SwapSys.SlotsInv.valid (h : s.SlotsInv) : s.SlotsValid := by
  have hslot : ∀ mm v pte, s.pte mm v = some pte → pte.Swapped → pte.slot = v + 1 ∧ v + 1 < s.maxSwapOffset := by
    intro mm v pte hpte hswapped
    obtain ⟨rfl, hlt⟩ := h.entry mm v pte hpte hswapped
    exact ⟨slot_swapEntry (hlt.trans s.maxSwapOffset_lt), hlt⟩
  constructor
  · intro mm v pte hpte hswapped
    obtain ⟨heq, hlt⟩ := hslot mm v pte hpte hswapped
    rw [heq]
    exact ⟨Nat.succ_pos v, hlt⟩
  · intro mm v pte mm' v' pte' hpte hswapped hpte' hswapped' hne hsame
    rw [(hslot mm v pte hpte hswapped).1, (hslot mm' v' pte' hpte' hswapped').1] at hsame
    obtain rfl : v = v' := Nat.succ.inj hsame
    exact hne (congrArg (fun mm => (mm, v)) (h.alone mm mm' v pte pte' hpte hswapped hpte' hswapped'))

theorem SwapSys.SlotsInv.others (h : s.SlotsInv) (ho : s.Others t) : t.SlotsInv := by
  constructor
  · intro mm v pte hpte hswapped
    rw [ho.maxSwapOffset]
    exact h.entry mm v pte (ho.swapped mm v pte hpte hswapped) hswapped
  · intro mm mm' v pte pte' hpte hswapped hpte' hswapped'
    exact h.alone mm mm' v pte pte' (ho.swapped mm v pte hpte hswapped) hswapped
      (ho.swapped mm' v pte' hpte' hswapped') hswapped'

/-! ## One round -/

theorem setPte_pte (s : SwapSys) (mm v : Nat) (entry : Pte) (mm' v' : Nat) :
    (s.setPte mm v entry).pte mm' v' = if mm' = mm ∧ v' = v then some entry else s.pte mm' v' := by
  unfold SwapSys.setPte
  by_cases hmm : mm' = mm
  · subst hmm
    by_cases hv : v' = v
    · subst hv
      simp
    · simp [hv]
  · simp [hmm]

/-- The page has gone to its slot. -/
theorem SwapSys.SlotsInv.evict (h : s.SlotsInv) (hvictim : s.Victim mm page) :
    (s.setPte mm (s.praVaddr page / pgSize) (swapEntry (s.praVaddr page / pgSize))).SlotsInv := by
  constructor
  · intro mm' v' pte hpte hswapped
    rw [setPte_pte] at hpte
    split at hpte
    · next hc =>
        obtain ⟨rfl, rfl⟩ := hc
        exact ⟨(Option.some.inj hpte).symm, hvictim.slot⟩
    · exact h.entry mm' v' pte hpte hswapped
  · intro mm₁ mm₂ v' pte₁ pte₂ hpte₁ hswapped₁ hpte₂ hswapped₂
    rw [setPte_pte] at hpte₁ hpte₂
    split at hpte₁
    · next hc₁ =>
        obtain ⟨rfl, rfl⟩ := hc₁
        split at hpte₂
        · next hc₂ => exact hc₂.1.symm
        · next hc₂ => exact absurd hswapped₂ (hvictim.alone mm₂ pte₂ (fun heq => hc₂ ⟨heq, rfl⟩) hpte₂)
    · next hc₁ =>
        split at hpte₂
        · next hc₂ =>
            obtain ⟨rfl, rfl⟩ := hc₂
            exact absurd hswapped₁ (hvictim.alone mm₁ pte₁ (fun heq => hc₁ ⟨heq, rfl⟩) hpte₁)
        · exact h.alone mm₁ mm₂ v' pte₁ pte₂ hpte₁ hswapped₁ hpte₂ hswapped₂

/-- The state after a write of a page has failed. -/
def SwapSys.putBack (s : SwapSys) (page : Nat) : SwapSys :=
  { s with
    links := listAddBefore (listDel s.links (PraNode.page page)) PraNode.head (PraNode.page page)
    failing := s.failing.tail }

/-- The state after a page has been evicted. -/
def SwapSys.evicted (s : SwapSys) (mm page : Nat) : SwapSys :=
  let v := s.praVaddr page / pgSize
  { s.setPte mm v (swapEntry v) with
    links := listDel s.links (PraNode.page page)
    failing := s.failing.tail
    swap := Function.update s.swap (v + 1) (s.mem page)
    free := insert page s.free }

/-- A round of `swap_out` whose page can be evicted. -/
theorem swapOutStep_victim (hpriv : s.smPriv mm = true) (hnext : listNext s.links PraNode.head = PraNode.page page)
    (hvictim : s.Victim mm page) :
    swapOutStep s (some mm) = done (if s.failing.headD false then s.putBack page else s.evicted mm page) := by
  obtain ⟨pte, hpte, hframe⟩ := hvictim.mapped
  have hvalid := (Pte.frame_eq_some.1 hframe).1
  have hslot := slot_swapEntry (hvictim.slot.trans s.maxSwapOffset_lt)
  have hbounds : 0 < (swapEntry (s.praVaddr page / pgSize)).slot ∧
      (swapEntry (s.praVaddr page / pgSize)).slot < s.maxSwapOffset := by
    rw [hslot]
    exact ⟨Nat.succ_pos _, hvictim.slot⟩
  unfold swapOutStep fifoSwapOutVictim swapfsWrite
  simp only [derefMm, bind_done, assert_of hpriv, hnext, pure_eq_done, hpte, assert_of hvalid, assert_of hbounds]
  cases hfailed : s.failing.headD false with
  | true =>
      simp only [if_true, fifoMapSwappable, assert_of hpriv, bind_done, pure_eq_done]
      rfl
  | false =>
      simp only [Bool.false_eq_true, if_false, SwapSys.setPte, hslot, if_neg hvictim.taken]
      rfl

/-! ## alloc_pages -/

theorem SwapSys.Victim.putBack (h : s.Victim mm page) (p : Nat) : (s.putBack p).Victim mm page :=
  ⟨h.mapped, h.taken, h.slot, h.alone⟩

theorem SwapSys.CanEvict.putBack (p : Nat) (h : s.CanEvict mm failing links) :
    (s.putBack p).CanEvict mm failing links := by
  induction failing generalizing links with
  | nil =>
      obtain ⟨q, hnext, hvictim⟩ := h
      exact ⟨q, hnext, hvictim.putBack p⟩
  | cons failed failing ih =>
      obtain ⟨q, hnext, hvictim, hrest⟩ := h
      exact ⟨q, hnext, hvictim.putBack p, fun hfailed => ih (hrest hfailed)⟩

/-- A round of the loop that evicts. -/
theorem allocPages_round (hnone : s.pmm.alloc 1 s.free = none) (hswap : s.swapInitOk = true)
    (hmm : s.checkMm = some mm) (hpriv : s.smPriv mm = true)
    (hnext : listNext s.links PraNode.head = PraNode.page page) (hvictim : s.Victim mm page) (bound : Nat) :
    allocPages (bound + 1) s 1 =
      allocPages bound (if s.failing.headD false then s.putBack page else s.evicted mm page) 1 := by
  have hstop : ¬ (1 < 1 ∨ s.swapInitOk = false) := by simp [hswap]
  have hone : 0 < 1 := Nat.one_pos
  rw [allocPages, assert_of hone, bind_done, hnone]
  dsimp only
  rw [if_neg hstop, hmm, swapOut, swapOutStep_victim hpriv hnext hvictim]
  rfl

/-- After an eviction there is a page. -/
theorem allocPages_evicted (h : s.SlotsInv) (hvictim : s.Victim mm page) (bound : Nat) :
    ∃ r u, allocPages (bound + 1) (s.evicted mm page) 1 = done (r, u) ∧ u.SlotsInv := by
  have hfree : (s.evicted mm page).free.Nonempty := ⟨page, Finset.mem_insert_self _ _⟩
  obtain ⟨pages, hpages⟩ := Option.isSome_iff_exists.1 ((s.evicted mm page).pmm.alloc_one _ hfree)
  refine ⟨some pages, { s.evicted mm page with free := (s.evicted mm page).free \ pages }, ?_, ?_⟩
  · have hone : 0 < 1 := Nat.one_pos
    rw [allocPages, assert_of hone, bind_done, hpages]
    rfl
  · have hinv := h.evict hvictim
    exact ⟨hinv.entry, hinv.alone⟩

/-- `alloc_pages` finds a page after it has evicted one, in at most one round more for each failure of the
device. -/
theorem allocPages_evicts (h : s.SlotsInv) (hnone : s.pmm.alloc 1 s.free = none) (hswap : s.swapInitOk = true)
    (hmm : s.checkMm = some mm) (hpriv : s.smPriv mm = true) (hfailing : s.failing = failing)
    (hevict : s.CanEvict mm failing s.links) :
    ∃ r u, allocPages (failing.length + 2) s 1 = done (r, u) ∧ u.SlotsInv := by
  induction failing generalizing s with
  | nil =>
      obtain ⟨page, hnext, hvictim⟩ := hevict
      rw [allocPages_round hnone hswap hmm hpriv hnext hvictim, hfailing]
      exact allocPages_evicted h hvictim _
  | cons failed failing ih =>
      obtain ⟨page, hnext, hvictim, hrest⟩ := hevict
      rw [allocPages_round hnone hswap hmm hpriv hnext hvictim, hfailing]
      cases failed with
      | true =>
          -- the page is the last of the list now, and one failure less is to come
          have hput : (s.putBack page).failing = failing := by
            unfold SwapSys.putBack
            rw [hfailing]
            rfl
          have hinv : (s.putBack page).SlotsInv := ⟨h.entry, h.alone⟩
          exact ih hinv hnone hswap hmm hpriv hput ((hrest rfl).putBack page)
      | false => exact allocPages_evicted h hvictim _

/-- A call that is within the condition returns, and keeps the slots apart. -/
theorem allocPages_spec (h : s.SlotsInv) (hmay : s.MayAlloc n) :
    ∃ bound r u, allocPages bound s n = done (r, u) ∧ u.SlotsInv := by
  obtain ⟨hpos, hmay⟩ := hmay
  cases hpages : s.pmm.alloc n s.free with
  | some pages =>
      refine ⟨1, some pages, { s with free := s.free \ pages }, ?_, h.entry, h.alone⟩
      rw [allocPages, assert_of hpos, bind_done, hpages]
      rfl
  | none =>
      by_cases hstop : 1 < n ∨ s.swapInitOk = false
      · refine ⟨1, none, s, ?_, h⟩
        rw [allocPages, assert_of hpos, bind_done, hpages]
        exact if_pos hstop
      · have hn : n = 1 := by omega
        have hswap : s.swapInitOk = true := by simpa using fun hc => hstop (Or.inr hc)
        subst hn
        rw [hpages] at hmay
        rcases hmay with hsome | hmany | hoff | ⟨mm, hmm, hpriv, hevict⟩
        · cases hsome
        · exact absurd hmany (lt_irrefl 1)
        · exact absurd (Or.inr hoff) hstop
        · exact ⟨_, allocPages_evicts h hpages hswap hmm hpriv rfl hevict⟩

/-- The bound on the rounds does not change what a call returns. -/
theorem allocPages_bound {bound' : Nat} {r r' : Option (Finset Nat)} (h : allocPages bound s n = done (r, t))
    (h' : allocPages bound' s n = done (r', u)) : t = u := by
  induction bound generalizing s bound' with
  | zero => cases h
  | succ bound ih =>
      cases bound' with
      | zero => cases h'
      | succ bound' =>
          rw [allocPages] at h h'
          obtain ⟨_, hpos, h⟩ := bind_eq_done.1 h
          obtain ⟨_, -, h'⟩ := bind_eq_done.1 h'
          cases hpages : s.pmm.alloc n s.free with
          | some pages =>
              rw [hpages] at h h'
              cases h
              cases h'
              rfl
          | none =>
              rw [hpages] at h h'
              dsimp only at h h'
              by_cases hstop : 1 < n ∨ s.swapInitOk = false
              · rw [if_pos hstop] at h h'
                cases h
                cases h'
                rfl
              · rw [if_neg hstop] at h h'
                obtain ⟨x, hx, h⟩ := bind_eq_done.1 h
                obtain ⟨y, hy, h'⟩ := bind_eq_done.1 h'
                rw [hx] at hy
                cases hy
                exact ih h h'

theorem SwapSys.SlotsInv.step {op : SwapOp} (h : s.SlotsInv) (hstep : Guarded SwapSys.Allowed SwapStep s op t) :
    t.SlotsInv := by
  obtain ⟨hallowed, hstep⟩ := hstep
  cases op with
  | alloc n =>
      obtain ⟨bound, r, hrun⟩ := hstep
      obtain ⟨bound', r', u, hrun', hinv⟩ := allocPages_spec h hallowed
      rw [allocPages_bound hrun hrun']
      exact hinv
  | other => exact h.others hstep

/-- In every run whose calls of `alloc_pages` are within the condition the slots are valid and not shared, and the
next such call returns. -/
theorem swap_slots_valid (h : ∀ mm v pte, s.pte mm v = some pte → ¬ pte.Swapped)
    (hrun : Run (Guarded SwapSys.Allowed SwapStep) s ops t) :
    t.SlotsValid ∧ ∀ n, t.MayAlloc n → ∃ bound r u, allocPages bound t n = done (r, u) ∧ u.SlotsValid := by
  have hstart : s.SlotsInv :=
    ⟨fun mm v pte hpte hswapped => absurd hswapped (h mm v pte hpte),
      fun mm _ v pte _ hpte hswapped => absurd hswapped (h mm v pte hpte)⟩
  have hinv : t.SlotsInv := hrun.invariant SwapSys.SlotsInv (fun _ _ _ => SwapSys.SlotsInv.step) hstart
  refine ⟨hinv.valid, fun n hmay => ?_⟩
  obtain ⟨bound, r, u, hcall, hslots⟩ := allocPages_spec hinv hmay
  exact ⟨bound, r, u, hcall, hslots.valid⟩

/-- A victim whose number is not that of a slot stops the machine; with the eight slots of the swap image this is
every page of a user program. -/
theorem swapOutStep_panics (hpriv : s.smPriv mm = true) (hnext : listNext s.links PraNode.head = PraNode.page page)
    (hpte : s.pte mm (s.praVaddr page / pgSize) = some pte) (hvalid : pte.Valid)
    (hsmall : s.praVaddr page / pgSize + 1 < 2 ^ 24) (hslot : s.maxSwapOffset ≤ s.praVaddr page / pgSize + 1) :
    swapOutStep s (some mm) = panic := by
  have hbounds : ¬ (0 < (swapEntry (s.praVaddr page / pgSize)).slot ∧
      (swapEntry (s.praVaddr page / pgSize)).slot < s.maxSwapOffset) := by
    rw [slot_swapEntry hsmall]
    exact fun hc => Nat.not_lt.2 hslot hc.2
  unfold swapOutStep fifoSwapOutVictim swapfsWrite
  simp only [derefMm, bind_done, assert_of hpriv, hnext, pure_eq_done, hpte, assert_of hvalid, assert_of_not hbounds,
    bind_panic]

/-- The allocator of the lowest free page. -/
def lowestPage : PmmManager where
  alloc := fun n free => if n = 1 ∧ free.Nonempty then some (free.filter fun f => ∀ g ∈ free, f ≤ g) else none
  alloc_one := fun free hfree => by simp [hfree]

/-- The first page of an address space, as in `check_swap`, and no free page. -/
def onePageSwap : SwapSys where
  pmm := lowestPage
  swapInitOk := true
  maxSwapOffset := 8
  checkMm := some 0
  smPriv := fun mm => mm = 0
  links := listAddBefore (listInit ⟨fun x => x, fun x => x⟩ PraNode.head) PraNode.head (PraNode.page 5)
  praVaddr := fun _ => 0x1000
  pte := fun mm v => if mm = 0 ∧ v = 1 then some (pteCreate 5 (pteV ||| pteR ||| pteW)) else none
  free := ∅
  mem := fun _ _ => 0
  swap := fun _ _ => 0
  failing := []
  maxSwapOffset_lt := by decide

theorem onePageSwap_victim : onePageSwap.Victim 0 5 := by
  refine ⟨⟨_, rfl, by decide⟩, Finset.notMem_empty _, by decide, fun mm pte hne hpte => ?_⟩
  have hnone : onePageSwap.pte mm (onePageSwap.praVaddr 5 / pgSize) = none := if_neg fun hc => hne hc.1
  rw [hnone] at hpte
  cases hpte

theorem onePageSwap_not_swapped (mm v : Nat) (pte : Pte) (hpte : onePageSwap.pte mm v = some pte) : ¬ pte.Swapped := by
  intro hswapped
  have hentry : (if mm = 0 ∧ v = 1 then some (pteCreate 5 (pteV ||| pteR ||| pteW)) else none) = some pte := hpte
  split at hentry
  · cases hentry
    exact hswapped.2 (valid_pteCreate _ _)
  · cases hentry

theorem swap_slots_valid_onePageSwap :
    ∃ t, Run (Guarded SwapSys.Allowed SwapStep) onePageSwap [SwapOp.alloc 1] t ∧ t.SlotsValid := by
  have hmay : onePageSwap.MayAlloc 1 :=
    ⟨Nat.one_pos, Or.inr (Or.inr (Or.inr ⟨0, rfl, rfl, 5, rfl, onePageSwap_victim⟩))⟩
  obtain ⟨bound, r, t, hcall, -⟩ := (swap_slots_valid onePageSwap_not_swapped Run.nil).2 1 hmay
  have hrun : Run (Guarded SwapSys.Allowed SwapStep) onePageSwap [SwapOp.alloc 1] t :=
    Run.cons ⟨hmay, bound, r, hcall⟩ Run.nil
  exact ⟨t, hrun, (swap_slots_valid onePageSwap_not_swapped hrun).1⟩

/-- Two address spaces with a page at the same address. -/
def twoSpaces : SwapSys :=
  { onePageSwap with
    smPriv := fun _ => true
    links := listAddBefore onePageSwap.links PraNode.head (PraNode.page 6)
    pte := fun mm v =>
      if v = 1 ∧ mm < 2 then some (pteCreate (5 + mm) (pteV ||| pteR ||| pteW)) else none }

/-- Without an address space in `check_mm_struct` `alloc_pages` does not return when there is no page; and two
address spaces that have pages at one address put them into one slot. -/
theorem swap_slots_shared :
    (∀ bound r u, allocPages bound { onePageSwap with checkMm := none } 1 ≠ done (r, u)) ∧
    ∃ t, (swapOut twoSpaces (some 0) 1 >>= fun s => swapOut s (some 1) 1) = done t ∧ ¬ t.SlotsValid := by
  constructor
  · intro bound r u hcall
    cases bound with
    | zero => cases hcall
    | succ bound => cases hcall
  · refine ⟨_, rfl, fun hvalid => ?_⟩
    exact hvalid.apart 0 1 (swapEntry 1) 1 1 (swapEntry 1) rfl (swapped_swapEntry (by decide)) rfl
      (swapped_swapEntry (by decide)) (by decide) rfl

end TriOS
