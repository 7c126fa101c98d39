import TriOS.Mm.MmStruct
import TriOS.Mm.PageMap

/-!
# PageFault — what do_pgfault may map

`FaultHandled` says what a page fault has to do with the page table, whatever the entry of the page is, and
`FaultOk` says of the state before it when the code does that. The memory is enough when the allocator can hand
out one page after the other for the tables that are missing and for the page itself.
-/

namespace TriOS

open Outcome Transition

/-- `VM_EXEC` -/
def vmExec : UInt32 := 0x4

/-- The allocator can hand out `n` pages, one after the other. -/
def PageAllocator.Supplies (pmm : PageAllocator) : Nat → Finset Nat → Prop
  | 0, _ => True
  | n + 1, free => ∃ page, pmm.pick free = some page ∧ pmm.Supplies n (free.erase page)

/-- The number of tables that an address has not. -/
def Vm.missing (s : Vm) (d la : Nat) : Nat :=
  match s.next d (la / ptSize / nPteEntry) with
  | none => 2
  | some q => if s.next q (la / ptSize % nPteEntry) = none then 1 else 0

/-- The slot of the swap device that an entry names. -/
def Pte.slot (pte : Pte) : Nat := (pte >>> 8).toNat

/-- The entry allows exactly what the flags of an area say. -/
structure Pte.Exactly (pte : Pte) (flags : UInt32) : Prop where
  user : pte &&& pteU ≠ 0
  read : pte &&& pteR ≠ 0 ↔ flags &&& vmRead ≠ 0
  write : pte &&& pteW ≠ 0 ↔ flags &&& vmWrite ≠ 0
  exec : pte &&& pteX ≠ 0 ↔ flags &&& vmExec ≠ 0

/-- The page `v` is mapped as it should be, to a frame that counts the entry: a page that was there is still
there, and a page that was swapped out has come back. -/
structure MapsPage (s t : Vm) (d v f : Nat) (flags : UInt32) : Prop where
  entry : t.page d v = some f
  perm : (t.pte d v).Exactly flags
  kept : ∀ g, s.page d v = some g → f = g ∧ t.mem f = s.mem f
  swapped : s.pte d v ≠ 0 → ¬ (s.pte d v).Valid → t.mem f = s.swap (s.pte d v).slot
  ref : t.ref f = (t.maps f).card ∧ (d, v) ∈ t.maps f

/-- What `do_pgfault` has to do: it returns; with 0 the page is mapped, and with an error its entry is as it was;
without an area for the address, or without memory for the page, it is an error. -/
def FaultHandled (s : Vm) (d addr : Nat) : Prop :=
  ∃ ret t, doPgfault s d addr = done (ret, t) ∧
    (ret = 0 → ∃ vma f, findVma (s.mmap d) addr = some vma ∧ MapsPage s t d (addr / pgSize) f vma.flags) ∧
    (ret ≠ 0 → t.pte d (addr / pgSize) = s.pte d (addr / pgSize)) ∧
    (findVma (s.mmap d) addr = none → ret ≠ 0) ∧
    (¬ s.pmm.Supplies (s.missing d addr + 1) s.free → ret ≠ 0)

/-- The flags that the permissions of `do_pgfault` are right for: pages are read exactly when they are written, and
never executed. -/
def PlainFlags (flags : UInt32) : Prop :=
  (flags &&& vmRead ≠ 0 ↔ flags &&& vmWrite ≠ 0) ∧ flags &&& vmExec = 0

/-- When `do_pgfault` does what it has to do: there is no area for the address; or the page has no entry yet, and
there is memory and the flags are plain, or there is neither memory nor swapping; or the entry is that of a page
that is swapped out, in a slot of the device, and there is memory and the flags are plain; or there is an entry,
and no swapping. -/
def FaultOk (s : Vm) (d addr : Nat) : Prop :=
  ∀ vma, findVma (s.mmap d) addr = some vma →
    if s.pte d (addr / pgSize) = 0 then
      (s.pmm.Supplies (s.missing d addr + 1) s.free → PlainFlags vma.flags) ∧
      (¬ s.pmm.Supplies (s.missing d addr + 1) s.free → s.swapInitOk = false)
    else
      s.swapInitOk = true →
        ¬ (s.pte d (addr / pgSize)).Valid ∧ 0 < (s.pte d (addr / pgSize)).slot ∧
          (s.pte d (addr / pgSize)).slot < s.maxSwapOffset ∧
          s.pmm.Supplies (s.missing d addr + 1) s.free ∧ PlainFlags vma.flags

variable {kind kind' : Nat → FrameKind} {s t u : Vm} {d f p q v la addr page n : Nat} {free : Finset Nat}
  {pmm : PageAllocator} {flags : UInt32}

/-! ## Memory for the tables -/

theorem PageAllocator.Supplies.pred (h : pmm.Supplies (n + 1) free) : pmm.Supplies n free := by
  induction n generalizing free with
  | zero => trivial
  | succ n ih =>
      obtain ⟨page, hpick, hrest⟩ := h
      exact ⟨page, hpick, ih hrest⟩

theorem supplies_succ_of_none (h : pmm.pick free = none) : ¬ pmm.Supplies (n + 1) free := by
  rintro ⟨page, hpick, -⟩
  rw [h] at hpick
  cases hpick

theorem supplies_succ_of_some (h : pmm.pick free = some page) :
    pmm.Supplies (n + 1) free ↔ pmm.Supplies n (free.erase page) := by
  constructor
  · rintro ⟨page', hpick, hrest⟩
    rw [h] at hpick
    cases hpick
    exact hrest
  · exact fun hrest => ⟨page, h, hrest⟩

/-- An address has its tables, or there is no entry for it. -/
theorem Vm.pte_of_missing (h : s.missing d la ≠ 0) : s.pte d (la / pgSize) = 0 := by
  apply Vm.pte_of_none
  rw [div_ptSize, Vm.pt]
  unfold Vm.missing at h
  cases hq : s.next d (la / ptSize / nPteEntry) with
  | none => rfl
  | some q =>
      rw [hq] at h
      dsimp only at h
      by_contra hne
      exact h (if_neg hne)

/-- What `get_pte` does with `create`, when there is memory for the tables that are missing and when there is not. -/
structure CreatesTables (kind : Nat → FrameKind) (s : Vm) (d la : Nat) : Prop where
  enough : s.pmm.Supplies (s.missing d la) s.free → ∃ kind' t p,
    getPte s d la true = done (some (p, la / pgSize % nPteEntry), t) ∧ Grows kind kind' s t d (la / ptSize) ∧
      t.pt d (la / ptSize) = some p ∧
      (s.pmm.Supplies (s.missing d la + 1) s.free ↔ t.pmm.Supplies 1 t.free)
  stops : ¬ s.pmm.Supplies (s.missing d la) s.free → s.swapInitOk = true → getPte s d la true = panic
  fails : ¬ s.pmm.Supplies (s.missing d la) s.free → s.swapInitOk = false → ∃ kind' t,
    getPte s d la true = done (none, t) ∧ Grows kind kind' s t d (la / ptSize)

theorem createsTables_of_dir (h : Frames kind s) (hd : d ∈ s.pgdirs) (hla : la < userTop)
    (hq : s.next d (la / ptSize / nPteEntry) = some q) : CreatesTables kind s d la := by
  have hsl := div_lt_tables hla
  cases hp : s.next q (la / ptSize % nPteEntry) with
  | some p =>
      have hpt : s.pt d (la / ptSize) = some p := by
        rw [Vm.pt, hq]
        exact hp
      have hmissing : s.missing d la = 0 := by
        unfold Vm.missing
        rw [hq]
        exact if_neg (by simp [hp])
      refine ⟨fun _ => ⟨kind, s, p, getPte_of_pt h hd hla hpt, Grows.refl h _ _, hpt, ?_⟩, fun hno => ?_, fun hno => ?_⟩
      · rw [hmissing]
      · rw [hmissing] at hno
        exact absurd trivial hno
      · rw [hmissing] at hno
        exact absurd trivial hno
  | none =>
      have hmissing : s.missing d la = 1 := by
        unfold Vm.missing
        rw [hq]
        exact if_pos hp
      have hget := getPte_newTable h hd hla hq hp
      cases hpick : s.pmm.pick s.free with
      | none =>
          rw [hpick] at hget
          refine ⟨fun henough => ?_, fun _ hswap => ?_, fun _ hswap => ⟨kind, s, ?_, Grows.refl h _ _⟩⟩
          · rw [hmissing] at henough
            exact absurd henough (supplies_succ_of_none hpick)
          · rw [hget]
            exact if_pos hswap
          · rw [hget]
            exact if_neg (by simp [hswap])
      | some page =>
          have hpage := s.pmm.pick_mem _ _ hpick
          have hgrows := h.newTable_grows hd hsl hq hp hpage
          rw [hpick] at hget
          have hone : s.pmm.Supplies 1 s.free := ⟨page, hpick, trivial⟩
          refine ⟨fun _ => ⟨_, _, page, hget, hgrows, ?_, ?_⟩, fun hno => ?_, fun hno => ?_⟩
          · exact ((hgrows.frames.table page d _).1 (Function.update_self _ _ _)).2.2
          · rw [hmissing, supplies_succ_of_some hpick]
            exact Iff.rfl
          · rw [hmissing] at hno
            exact absurd hone hno
          · rw [hmissing] at hno
            exact absurd hone hno

theorem createsTables (h : Frames kind s) (hd : d ∈ s.pgdirs) (hla : la < userTop) : CreatesTables kind s d la := by
  have hsl := div_lt_tables hla
  cases hq : s.next d (la / ptSize / nPteEntry) with
  | some q => exact createsTables_of_dir h hd hla hq
  | none =>
      have hmissing : s.missing d la = 2 := by
        unfold Vm.missing
        rw [hq]
      have hget := getPte_newDir h hd hla hq
      cases hpick : s.pmm.pick s.free with
      | none =>
          rw [hpick] at hget
          refine ⟨fun henough => ?_, fun _ hswap => ?_, fun _ hswap => ⟨kind, s, ?_, Grows.refl h _ _⟩⟩
          · rw [hmissing] at henough
            exact absurd henough (supplies_succ_of_none hpick)
          · rw [hget]
            exact if_pos hswap
          · rw [hget]
            exact if_neg (by simp [hswap])
      | some page =>
          have hpage := s.pmm.pick_mem _ _ hpick
          have hgrows := h.newDir_grows hd hsl hq hpage
          have hne := h.free_ne_root hpage hd
          have hentry := (h.newDir_adds hd hq hpage).next d hd _ (div_lt_userDirs hsl)
          rw [if_pos ⟨rfl, rfl⟩] at hentry
          rw [hpick] at hget
          -- the new directory is empty, so that one table is missing in the new state
          let s' := s.newTable page d (la / ptSize / nPteEntry)
          have hempty : s'.next page (la / ptSize % nPteEntry) = none := by
            rw [Vm.next, newTable_mem hne, if_neg fun hc => hne hc.1.symm, if_pos rfl]
            exact Pte.frame_zero
          have hmissing' : s'.missing d la = 1 := by
            unfold Vm.missing
            rw [hentry]
            exact if_pos hempty
          have hrest : ∀ n, s.pmm.Supplies (n + 1) s.free ↔ s'.pmm.Supplies n s'.free := fun n =>
            supplies_succ_of_some hpick
          have hcreates := createsTables_of_dir hgrows.frames hd hla hentry
          refine ⟨fun henough => ?_, fun hno hswap => ?_, fun hno hswap => ?_⟩
          · rw [hmissing, hrest] at henough
            obtain ⟨kind', t, p, ht, hgrows', hpt, hsupplies⟩ := hcreates.enough (hmissing'.symm ▸ henough)
            refine ⟨kind', t, p, hget.trans ht, hgrows.trans hgrows', hpt, ?_⟩
            rw [hmissing, hrest, ← hsupplies]
            exact hmissing'.symm ▸ Iff.rfl
          · rw [hmissing, hrest] at hno
            exact hget.trans (hcreates.stops (hmissing'.symm ▸ hno) hswap)
          · rw [hmissing, hrest] at hno
            obtain ⟨kind', t, ht, hgrows'⟩ := hcreates.fails (hmissing'.symm ▸ hno) hswap
            exact ⟨kind', t, hget.trans ht, hgrows.trans hgrows'⟩

/-! ## Permissions -/

theorem pteCreate_flag (page : Nat) (perm : Perm) {flag : UInt64} (hflag : flagMask &&& flag = flag) :
    pteCreate page (pteV ||| perm.bits) &&& flag = (pteV ||| perm.bits) &&& flag := by
  have hflags := flags_pteCreate page perm
  calc
    pteCreate page (pteV ||| perm.bits) &&& flag = pteCreate page (pteV ||| perm.bits) &&& (flagMask &&& flag) := by
      rw [hflag]
    _ = (pteV ||| perm.bits) &&& flag := by
      rw [← UInt64.and_assoc, hflags]

/-- The entry that `do_pgfault` makes is right for plain flags only. -/
theorem exactly_faultPerm_iff (page : Nat) (flags : UInt32) :
    (pteCreate page (pteV ||| (faultPerm flags).bits)).Exactly flags ↔ PlainFlags flags := by
  have hu := pteCreate_flag page (faultPerm flags) (show flagMask &&& pteU = pteU by decide)
  have hr := pteCreate_flag page (faultPerm flags) (show flagMask &&& pteR = pteR by decide)
  have hw := pteCreate_flag page (faultPerm flags) (show flagMask &&& pteW = pteW by decide)
  have hx := pteCreate_flag page (faultPerm flags) (show flagMask &&& pteX = pteX by decide)
  by_cases hwrite : flags &&& vmWrite ≠ 0
  · have hbits : (faultPerm flags).bits = pteU ||| pteR ||| pteW ||| pteV := by
      unfold faultPerm
      rw [if_pos hwrite]
    rw [hbits] at hu hr hw hx ⊢
    constructor
    · intro h
      refine ⟨iff_of_true (h.read.1 ?_) hwrite, not_not.1 fun hne => h.exec.2 hne ?_⟩
      · rw [hr]
        decide
      · rw [hx]
        decide
    · rintro ⟨hrw, hexec⟩
      refine ⟨?_, iff_of_true ?_ (hrw.2 hwrite), iff_of_true ?_ hwrite, iff_of_false ?_ (not_not.2 hexec)⟩
      · rw [hu]
        decide
      · rw [hr]
        decide
      · rw [hw]
        decide
      · rw [hx]
        decide
  · have hbits : (faultPerm flags).bits = pteU := by
      unfold faultPerm
      rw [if_neg hwrite]
    rw [hbits] at hu hr hw hx ⊢
    constructor
    · intro h
      refine ⟨iff_of_false (fun hne => h.read.2 hne ?_) hwrite, not_not.1 fun hne => h.exec.2 hne ?_⟩
      · rw [hr]
        decide
      · rw [hx]
        decide
    · rintro ⟨hrw, hexec⟩
      refine ⟨?_, iff_of_false ?_ fun hne => hwrite (hrw.1 hne), iff_of_false ?_ hwrite,
        iff_of_false ?_ (not_not.2 hexec)⟩
      · rw [hu]
        decide
      · rw [hr]
        decide
      · rw [hw]
        decide
      · rw [hx]
        decide

/-! ## The page that is mapped -/

variable {words : Nat → UInt64} {sl : Nat}

/-- A fresh page is what was asked for when there was none, and the flags are plain. -/
theorem mapsPage_fresh_iff (hgrows : Grows kind kind' s t d sl) (hd : d ∈ s.pgdirs) (hv : v < userPages)
    (hfresh : MapsFresh kind' t u d v page words (pteCreate page (pteV ||| (faultPerm flags).bits)))
    (hnot : ¬ (s.pte d v).Valid) (hwords : s.pte d v ≠ 0 → words = s.swap (s.pte d v).slot) :
    (∃ f, MapsPage s u d v f flags) ↔ PlainFlags flags := by
  have hd' : d ∈ t.pgdirs := hgrows.env.pgdirs.symm ▸ hd
  have hpte : u.pte d v = pteCreate page (pteV ||| (faultPerm flags).bits) := by
    rw [hfresh.sets.pte d hd' v hv, if_pos ⟨rfl, rfl⟩]
  have hpage : u.page d v = some page := by
    rw [Vm.page, hpte]
    exact hfresh.frame
  rw [← exactly_faultPerm_iff page flags, ← hpte]
  refine ⟨fun h => ?_, fun hperm => ⟨page, hpage, hperm, fun g hg => ?_, fun hne _ => ?_, ?_⟩⟩
  · obtain ⟨f, hmaps⟩ := h
    exact hmaps.perm
  · exact absurd (Pte.frame_eq_some.1 hg).1 hnot
  · rw [hfresh.words]
    exact hwords hne
  · have hdu : d ∈ u.pgdirs := hfresh.env.pgdirs.symm ▸ hd'
    exact ⟨(hfresh.frames.ref page rekind_self).1, mem_maps.2 ⟨hdu, hv, hpage⟩⟩

/-- A fresh page is not the page that was there. -/
theorem not_mapsPage_fresh (h : Frames kind s) (hgrows : Grows kind kind' s t d sl) (hd : d ∈ s.pgdirs)
    (hv : v < userPages)
    (hfresh : MapsFresh kind' t u d v page words (pteCreate page (pteV ||| (faultPerm flags).bits)))
    (hvalid : (s.pte d v).Valid) : ¬ ∃ f, MapsPage s u d v f flags := by
  rintro ⟨f, hmaps⟩
  have hd' : d ∈ t.pgdirs := hgrows.env.pgdirs.symm ▸ hd
  have hold : s.page d v = some (ptePpn (s.pte d v)) := Pte.frame_eq_some.2 ⟨hvalid, rfl⟩
  have hdata := h.data d v _ hd hv hold
  obtain ⟨hf, -⟩ := hmaps.kept _ hold
  have hpage : u.page d v = some page := by
    rw [Vm.page, hfresh.sets.pte d hd' v hv, if_pos ⟨rfl, rfl⟩]
    exact hfresh.frame
  have hsame : page = ptePpn (s.pte d v) := (Option.some.inj (hpage.symm.trans hmaps.entry)).trans hf
  have hwas := hfresh.was
  rw [hsame] at hwas
  rcases hgrows.uses (ptePpn (s.pte d v)) with heq | ⟨hfree, -⟩
  · rw [heq, hdata] at hwas
    cases hwas
  · rw [hdata] at hfree
    cases hfree

/-! ## do_pgfault -/

variable {vma : Vma} {ret : Int}

theorem not_faultHandled_of_panic (hrun : doPgfault s d addr = panic) : ¬ FaultHandled s d addr := by
  rintro ⟨ret, t, hdone, -⟩
  rw [hrun] at hdone
  cases hdone

theorem faultHandled_of_error (hrun : doPgfault s d addr = done (ret, t)) (hret : ret ≠ 0)
    (hpte : t.pte d (addr / pgSize) = s.pte d (addr / pgSize)) : FaultHandled s d addr :=
  ⟨ret, t, hrun, fun hzero => absurd hzero hret, fun _ => hpte, fun _ => hret, fun _ => hret⟩

theorem faultHandled_of_zero (hrun : doPgfault s d addr = done (0, u)) (hfind : findVma (s.mmap d) addr = some vma)
    (henough : s.pmm.Supplies (s.missing d addr + 1) s.free) :
    FaultHandled s d addr ↔ ∃ f, MapsPage s u d (addr / pgSize) f vma.flags := by
  constructor
  · rintro ⟨ret, t, hdone, hzero, -⟩
    rw [hrun] at hdone
    cases hdone
    obtain ⟨vma', f, hfind', hmaps⟩ := hzero rfl
    rw [hfind] at hfind'
    cases hfind'
    exact ⟨f, hmaps⟩
  · rintro ⟨f, hmaps⟩
    refine ⟨0, u, hrun, fun _ => ⟨vma, f, hfind, hmaps⟩, fun hne => absurd rfl hne, fun hnone => ?_, fun hno => ?_⟩
    · rw [hfind] at hnone
      cases hnone
    · exact absurd henough hno

/-- `do_pgfault` when the entry of the page has been found. -/
theorem doPgfault_of_entry (hfind : findVma (s.mmap d) addr = some vma)
    (hget : getPte s d (roundDown addr pgSize) true = done (some (p, n), t)) :
    doPgfault s d addr =
      if t.mem p n = 0 then do
        match ← pgdirAllocPage t d (roundDown addr pgSize) (faultPerm vma.flags) with
        | (none, s) => pure (-eNoMem, s)
        | (some _, s) => pure (0, s)
      else if t.swapInitOk then do
        let (page, s) ← swapIn t (t.mem p n)
        let (_, s) ← pageInsert s d page (roundDown addr pgSize) (faultPerm vma.flags)
        pure (0, s)
      else pure (-eNoMem, t) := by
  unfold doPgfault
  rw [hfind]
  dsimp only
  rw [hget]
  rfl

/-- A page for an address that has its table. -/
theorem pgdirAllocPage_fresh (perm : Perm) (h : Frames kind s) (hd : d ∈ s.pgdirs) (hla : la < userTop)
    (hpt : s.pt d (la / ptSize) = some p) (hpick : s.pmm.pick s.free = some page) :
    ∃ u, pgdirAllocPage s d la perm = done (some page, u) ∧
      MapsFresh kind s u d (la / pgSize) page (s.mem page) (pteCreate page (pteV ||| perm.bits)) := by
  obtain ⟨u, hu, hfresh⟩ := pageInsert_fresh (s.mem page) perm h hd hla hpt (s.pmm.pick_mem _ _ hpick)
  have hsame : Vm.setPage { s with free := s.free.erase page } page (s.mem page) =
      { s with free := s.free.erase page } := by
    unfold Vm.setPage
    dsimp only
    rw [Function.update_eq_self]
  rw [hsame] at hu
  refine ⟨u, ?_, hfresh⟩
  unfold pgdirAllocPage
  rw [allocPage_some hpick, bind_done]
  dsimp only
  rw [hu]
  rfl

/-- The part of `do_pgfault` after the entry has been found. -/
theorem faultHandled_iff_of_entry (h : Frames kind s) (hd : d ∈ s.pgdirs) (haddr : addr < userTop)
    (hfind : findVma (s.mmap d) addr = some vma) (hgrows : Grows kind kind' s t d (roundDown addr pgSize / ptSize))
    (hget : getPte s d (roundDown addr pgSize) true =
      done (some (p, roundDown addr pgSize / pgSize % nPteEntry), t))
    (hpt : t.pt d (roundDown addr pgSize / ptSize) = some p)
    (hsupplies : s.pmm.Supplies (s.missing d addr + 1) s.free ↔ t.pmm.Supplies 1 t.free) :
    FaultHandled s d addr ↔ FaultOk s d addr := by
  have hla : roundDown addr pgSize < userTop := (Nat.sub_le _ _).trans_lt haddr
  have hdiv : roundDown addr pgSize / pgSize = addr / pgSize := by
    unfold roundDown pgSize
    omega
  have hv := div_lt_pages haddr
  have hd' : d ∈ t.pgdirs := hgrows.env.pgdirs.symm ▸ hd
  have hmem : t.mem p (roundDown addr pgSize / pgSize % nPteEntry) = s.pte d (addr / pgSize) := by
    have hpte : t.pte d (roundDown addr pgSize / pgSize) = t.mem p (roundDown addr pgSize / pgSize % nPteEntry) :=
      Vm.pte_of_pt (by rw [div_ptSize]; exact hpt)
    rw [← hpte, hdiv]
    exact hgrows.pte d hd _ hv
  have hrun := doPgfault_of_entry hfind hget
  rw [hmem, hgrows.env.swapInitOk] at hrun
  have hok : FaultOk s d addr ↔
      if s.pte d (addr / pgSize) = 0 then
        (s.pmm.Supplies (s.missing d addr + 1) s.free → PlainFlags vma.flags) ∧
        (¬ s.pmm.Supplies (s.missing d addr + 1) s.free → s.swapInitOk = false)
      else
        s.swapInitOk = true →
          ¬ (s.pte d (addr / pgSize)).Valid ∧ 0 < (s.pte d (addr / pgSize)).slot ∧
            (s.pte d (addr / pgSize)).slot < s.maxSwapOffset ∧
            s.pmm.Supplies (s.missing d addr + 1) s.free ∧ PlainFlags vma.flags := by
    unfold FaultOk
    rw [hfind]
    exact ⟨fun hall => hall vma rfl, fun hone vma' heq => Option.some.inj heq ▸ hone⟩
  rw [hok]
  by_cases hzero : s.pte d (addr / pgSize) = 0
  · rw [if_pos hzero] at hrun ⊢
    have hnot : ¬ (s.pte d (addr / pgSize)).Valid := by
      rw [hzero]
      exact not_valid_zero
    cases hpick : t.pmm.pick t.free with
    | none =>
        have hno : ¬ s.pmm.Supplies (s.missing d addr + 1) s.free := fun hyes =>
          supplies_succ_of_none hpick (hsupplies.1 hyes)
        unfold pgdirAllocPage at hrun
        rw [allocPage_none hpick, hgrows.env.swapInitOk] at hrun
        cases hswap : s.swapInitOk with
        | true =>
            rw [hswap] at hrun
            exact iff_of_false (not_faultHandled_of_panic hrun) fun hc => by cases hc.2 hno
        | false =>
            rw [hswap] at hrun
            refine iff_of_true (faultHandled_of_error hrun eNoMem_ne_zero (hgrows.pte d hd _ hv)) ?_
            exact ⟨fun hyes => absurd hyes hno, fun _ => rfl⟩
    | some page =>
        have henough : s.pmm.Supplies (s.missing d addr + 1) s.free := hsupplies.2 ⟨page, hpick, trivial⟩
        obtain ⟨u, hu, hfresh⟩ :=
          pgdirAllocPage_fresh (faultPerm vma.flags) hgrows.frames hd' hla hpt hpick
        rw [hu, bind_done] at hrun
        rw [hdiv] at hfresh
        rw [faultHandled_of_zero hrun hfind henough,
          mapsPage_fresh_iff hgrows hd hv hfresh hnot fun hne => absurd hzero hne]
        exact ⟨fun hplain => ⟨fun _ => hplain, fun hno => absurd henough hno⟩, fun hc => hc.1 henough⟩
  · rw [if_neg hzero] at hrun ⊢
    cases hswap : s.swapInitOk with
    | false =>
        rw [hswap] at hrun
        refine iff_of_true (faultHandled_of_error hrun eNoMem_ne_zero (hgrows.pte d hd _ hv)) fun hc => ?_
        cases hc
    | true =>
        rw [hswap, if_pos rfl] at hrun
        unfold swapIn at hrun
        cases hpick : t.pmm.pick t.free with
        | none =>
            have hno : ¬ s.pmm.Supplies (s.missing d addr + 1) s.free := fun hyes =>
              supplies_succ_of_none hpick (hsupplies.1 hyes)
            rw [allocPage_none hpick, hgrows.env.swapInitOk, hswap] at hrun
            exact iff_of_false (not_faultHandled_of_panic hrun) fun hc => hno (hc rfl).2.2.2.1
        | some page =>
            have henough : s.pmm.Supplies (s.missing d addr + 1) s.free := hsupplies.2 ⟨page, hpick, trivial⟩
            rw [allocPage_some hpick, bind_done] at hrun
            dsimp only at hrun
            have hmax : t.maxSwapOffset = s.maxSwapOffset := hgrows.env.maxSwapOffset
            by_cases hslot : 0 < (s.pte d (addr / pgSize)).slot ∧ (s.pte d (addr / pgSize)).slot < s.maxSwapOffset
            · obtain ⟨u, hu, hfresh⟩ := pageInsert_fresh (t.swap (s.pte d (addr / pgSize)).slot)
                (faultPerm vma.flags) hgrows.frames hd' hla hpt (t.pmm.pick_mem _ _ hpick)
              unfold Pte.slot at hslot hu
              rw [assert_of (hmax.symm ▸ hslot), bind_done, pure_eq_done, bind_done] at hrun
              dsimp only at hrun
              rw [hu, bind_done] at hrun
              rw [hdiv] at hfresh
              rw [faultHandled_of_zero hrun hfind henough]
              by_cases hvalid : (s.pte d (addr / pgSize)).Valid
              · refine iff_of_false (not_mapsPage_fresh h hgrows hd hv hfresh hvalid) fun hc => ?_
                exact (hc rfl).1 hvalid
              · rw [mapsPage_fresh_iff hgrows hd hv hfresh hvalid fun _ => by rw [hgrows.env.swap]]
                exact ⟨fun hplain _ => ⟨hvalid, hslot.1, hslot.2, henough, hplain⟩, fun hc => (hc rfl).2.2.2.2⟩
            · refine iff_of_false (not_faultHandled_of_panic ?_) fun hc => hslot ⟨(hc rfl).2.1, (hc rfl).2.2.1⟩
              unfold Pte.slot at hslot
              rw [assert_of_not (hmax.symm ▸ hslot)] at hrun
              exact hrun

/-- `do_pgfault` does with the page what it has to do exactly in the states of `FaultOk`. -/
theorem page_fault_exact (h : Frames kind s) (hd : d ∈ s.pgdirs) (huser : ∀ vma ∈ s.mmap d, vma.stop ≤ userTop)
    (addr : Nat) : FaultHandled s d addr ↔ FaultOk s d addr := by
  cases hfind : findVma (s.mmap d) addr with
  | none =>
      have hrun : doPgfault s d addr = done (-eInval, s) := by
        unfold doPgfault
        rw [hfind]
        rfl
      refine iff_of_true (faultHandled_of_error hrun (by decide) rfl) fun vma hvma => ?_
      rw [hfind] at hvma
      cases hvma
  | some vma =>
      have hin := List.find?_some hfind
      have hmem := List.mem_of_find?_eq_some hfind
      have haddr : addr < userTop := by
        have hstop := huser vma hmem
        simp only [decide_eq_true_eq] at hin
        omega
      have hla : roundDown addr pgSize < userTop := (Nat.sub_le _ _).trans_lt haddr
      have hdiv : roundDown addr pgSize / ptSize = addr / ptSize := by
        unfold roundDown pgSize ptSize
        omega
      have hv := div_lt_pages haddr
      have hmissing : s.missing d (roundDown addr pgSize) = s.missing d addr := by
        unfold Vm.missing
        rw [hdiv]
      have hcreates := createsTables h hd hla
      by_cases hsup : s.pmm.Supplies (s.missing d addr) s.free
      · obtain ⟨kind', t, p, hget, hgrows, hpt, hsupplies⟩ := hcreates.enough (hmissing.symm ▸ hsup)
        rw [hmissing] at hsupplies
        exact faultHandled_iff_of_entry h hd haddr hfind hgrows hget hpt hsupplies
      · -- there is no memory for the tables, so that there is no entry either
        have hno : ¬ s.pmm.Supplies (s.missing d addr + 1) s.free := fun hyes => hsup hyes.pred
        have hzero : s.pte d (addr / pgSize) = 0 := by
          apply Vm.pte_of_missing
          intro hnone
          rw [hnone] at hsup
          exact hsup trivial
        have hok : FaultOk s d addr ↔ s.swapInitOk = false := by
          unfold FaultOk
          rw [hfind, hzero]
          constructor
          · intro hall
            have hone := hall vma rfl
            rw [if_pos rfl] at hone
            exact hone.2 hno
          · intro hswap vma' _
            rw [if_pos rfl]
            exact ⟨fun hyes => absurd hyes hno, fun _ => hswap⟩
        rw [hok]
        cases hswap : s.swapInitOk with
        | true =>
            have hget := hcreates.stops (hmissing.symm ▸ hsup) hswap
            refine iff_of_false (not_faultHandled_of_panic ?_) (by simp)
            unfold doPgfault
            rw [hfind]
            dsimp only
            rw [hget]
            rfl
        | false =>
            obtain ⟨kind', t, hget, hgrows⟩ := hcreates.fails (hmissing.symm ▸ hsup) hswap
            have hrun : doPgfault s d addr = done (-eNoMem, t) := by
              unfold doPgfault
              rw [hfind]
              dsimp only
              rw [hget]
              rfl
            exact iff_of_true (faultHandled_of_error hrun eNoMem_ne_zero (hgrows.pte d hd _ hv)) rfl

/-- A new address space with an area of pages that are read and written. -/
theorem page_fault_exact_fourFrames : ∃ t, Run MmStep fourFrames
    [MmOp.setupPgdir, MmOp.mmMap 1 0x200000 0x2000 (vmRead ||| vmWrite) true] t ∧
      FaultHandled t.vm 1 0x200000 := by
  have hrun : ∃ t, Run MmStep fourFrames
      [MmOp.setupPgdir, MmOp.mmMap 1 0x200000 0x2000 (vmRead ||| vmWrite) true] t ∧
        1 ∈ t.vm.pgdirs ∧ t.vm.mmap 1 = [⟨0x200000, 0x202000, vmRead ||| vmWrite⟩] ∧
        t.vm.pte 1 0x200 = 0 ∧ t.vm.pmm.Supplies (t.vm.missing 1 0x200000 + 1) t.vm.free :=
    ⟨_, Run.cons ⟨trivial, rfl⟩ (Run.cons ⟨Finset.mem_insert_self _ _, rfl⟩ Run.nil), Finset.mem_insert_self _ _, rfl,
      by decide, 2, by decide, 3, by decide, 4, by decide, trivial⟩
  obtain ⟨t, hrun, hd, hmmap, hpte, hsupplies⟩ := hrun
  obtain ⟨kind, hinv⟩ := MmInv.run fourFrames_boot hrun
  have huser : ∀ vma ∈ t.vm.mmap 1, vma.stop ≤ userTop := by
    rw [hmmap]
    decide
  refine ⟨t, hrun, (page_fault_exact hinv.frames hd huser 0x200000).2 fun vma hfind => ?_⟩
  rw [hmmap] at hfind
  have hflags : vma.flags = vmRead ||| vmWrite := by
    have hmem := List.mem_of_find?_eq_some hfind
    rw [List.mem_singleton.1 hmem]
  have hzero : t.vm.pte 1 (0x200000 / pgSize) = 0 := hpte
  rw [hzero, if_pos rfl, hflags]
  exact ⟨fun _ => by unfold PlainFlags; decide, fun hno => absurd hsupplies hno⟩

/-- A page of an area of code is mapped for nothing: it can be neither read nor executed. -/
theorem page_fault_code : ∃ t, Run MmStep fourFrames
    [MmOp.setupPgdir, MmOp.mmMap 1 0x200000 0x2000 (vmRead ||| vmExec) true] t ∧
      ¬ FaultHandled t.vm 1 0x200000 := by
  refine ⟨_, Run.cons ⟨trivial, rfl⟩ (Run.cons ⟨Finset.mem_insert_self _ _, rfl⟩ Run.nil), ?_⟩
  rintro ⟨ret, u, hrun, hzero, -⟩
  cases hrun
  obtain ⟨vma, f, hfind, hmaps⟩ := hzero rfl
  cases hfind
  exact absurd (hmaps.perm.exec.2 (by decide)) (by decide)

end TriOS
