import TriOS.Mm.PagingRuns

/-!
# PageMap — a page table is a finite map

The three levels of a page table implement a map from pages to page frames with permissions. `PageMap.apply`
says what an operation with a given result does to the map, and `MapInv` is the refinement: the entry of a
page is the one that the map has there, over any run and any number of page directories.
-/

namespace TriOS

open Outcome Transition

/-! ## The map -/

/-- What the page directories map: a frame and the permissions that it was inserted with. -/
abbrev PageMap := Nat → Nat → Option (Nat × Perm)

/-- Map the page `v` of `d` to `x`, and nothing else. -/
def PageMap.set (m : PageMap) (d v : Nat) (x : Option (Nat × Perm)) : PageMap := fun e w =>
  if e = d ∧ w = v then x else m e w

/-- The operations on page tables, with those that make page directories and pages for them. -/
inductive PtOp where
  | setupPgdir
  | allocPage
  | freePage (page : Nat)
  | getPte (pgdir la : Nat) (create : Bool)
  | pageInsert (pgdir page la : Nat) (perm : Perm)
  | pageRemove (pgdir la : Nat)
  | unmapRange (pgdir start stop : Nat)
  | pgdirAllocPage (pgdir la : Nat) (perm : Perm)

/-- What an operation returns: nothing, a number, a page or `NULL`, an entry or `NULL`. -/
inductive PtRes where
  | unit
  | ret (r : Int)
  | page (p : Option Nat)
  | entry (m : Option (Nat × Nat))

/-- What an operation does to the map. -/
def PageMap.apply (m : PageMap) : PtOp × PtRes → PageMap
  | (PtOp.setupPgdir, PtRes.page (some d)) => fun e w => if e = d then none else m e w
  | (PtOp.pageInsert d page la perm, PtRes.ret r) => if r = 0 then m.set d (la / pgSize) (some (page, perm)) else m
  | (PtOp.pageRemove d la, _) => m.set d (la / pgSize) none
  | (PtOp.unmapRange d start stop, _) => fun e w =>
      if e = d ∧ start / pgSize ≤ w ∧ w < stop / pgSize then none else m e w
  | (PtOp.pgdirAllocPage d la perm, PtRes.page (some page)) => m.set d (la / pgSize) (some (page, perm))
  | _ => m

/-- The map after a sequence of operations. -/
def PageMap.after (ops : List (PtOp × PtRes)) : PageMap :=
  ops.foldl PageMap.apply fun _ _ => none

/-- The entry of a page that the map has at `x`. -/
def entryOf : Option (Nat × Perm) → Pte
  | none => 0
  | some (page, perm) => pteCreate page (pteV ||| perm.bits)

/-! ## The operations -/

/-- `get_page`, with the entry that it stores in `*ptep_store`. -/
def getPage (s : Vm) (pgdir la : Nat) : Outcome (Option Nat × Option (Nat × Nat) × Vm) := do
  match ← getPte s pgdir la false with
  | (none, s) => pure (none, none, s)
  | (some (f, i), s) =>
      if (s.mem f i).Valid then do
        let page ← pte2page (s.mem f i)
        pure (some page, some (f, i), s)
      else pure (none, some (f, i), s)

/-- One operation with its result. -/
def PtOp.exec (s : MmState) : PtOp → Outcome (PtRes × MmState)
  | setupPgdir => do
      let (page, vm) ← TriOS.setupPgdir s.vm
      pure (PtRes.page page, { s with vm := vm })
  | allocPage => do
      let (page, vm) ← TriOS.allocPage s.vm
      pure (PtRes.page page, { vm := vm, held := s.held ∪ page.toFinset })
  | freePage page => do
      let vm ← TriOS.freePage s.vm page
      pure (PtRes.unit, { vm := vm, held := s.held.erase page })
  | getPte pgdir la create => do
      let (ptep, vm) ← TriOS.getPte s.vm pgdir la create
      pure (PtRes.entry ptep, { s with vm := vm })
  | pageInsert pgdir page la perm => do
      let (ret, vm) ← TriOS.pageInsert s.vm pgdir page la perm
      pure (PtRes.ret ret, { vm := vm, held := if ret = 0 then s.held.erase page else s.held })
  | pageRemove pgdir la => do
      let vm ← TriOS.pageRemove s.vm pgdir la
      pure (PtRes.unit, { s with vm := vm })
  | unmapRange pgdir start stop => do
      let vm ← TriOS.unmapRange s.vm pgdir start stop
      pure (PtRes.unit, { s with vm := vm })
  | pgdirAllocPage pgdir la perm => do
      let (page, vm) ← TriOS.pgdirAllocPage s.vm pgdir la perm
      pure (PtRes.page page, { s with vm := vm })

/-- What the callers promise: page directories exist, addresses are user addresses, ranges are ranges of
user pages, and what is inserted is a page of data. -/
def PtOp.Called (s : MmState) : PtOp → Prop
  | setupPgdir => True
  | allocPage => True
  | freePage page => page ∈ s.held
  | getPte pgdir la _ => pgdir ∈ s.vm.pgdirs ∧ la < userTop
  | pageInsert pgdir page la _ =>
      pgdir ∈ s.vm.pgdirs ∧ la < userTop ∧ (page ∈ s.held ∨ (s.vm.maps page).Nonempty)
  | pageRemove pgdir la => pgdir ∈ s.vm.pgdirs ∧ la < userTop
  | unmapRange pgdir start stop =>
      pgdir ∈ s.vm.pgdirs ∧ start % pgSize = 0 ∧ stop % pgSize = 0 ∧ UserAccess start stop
  | pgdirAllocPage pgdir la _ => pgdir ∈ s.vm.pgdirs ∧ la < userTop

/-- A step of the system: an operation and what it has returned. -/
def PtStep (s : MmState) (l : PtOp × PtRes) (t : MmState) : Prop :=
  l.1.Called s ∧ l.1.exec s = done (l.2, t)

/-! ## The refinement -/

/-- The page tables hold the map `m`. -/
structure MapInv (kind : Nat → FrameKind) (s : MmState) (m : PageMap) : Prop where
  frames : Frames kind s.vm
  held : ∀ f, f ∈ s.held ↔ kind f = FrameKind.held
  entry : ∀ d ∈ s.vm.pgdirs, ∀ w < userPages, s.vm.pte d w = entryOf (m d w)
  lt : ∀ d w page perm, m d w = some (page, perm) → page < npage

variable {kind kind' : Nat → FrameKind} {s t : MmState} {vm : Vm} {m m' : PageMap} {d e f v w la p : Nat}
  {ops : List (PtOp × PtRes)} {op : PtOp} {new : Option Nat} {sl : Nat} {perm : Perm}
  {x : Option (Nat × Perm)} {held : Finset Nat}

theorem MmState.Boot.mapInv (h : s.Boot) : ∃ kind, MapInv kind s fun _ _ => none := by
  obtain ⟨kind, hinv⟩ := h.inv
  refine ⟨kind, hinv.frames, hinv.held, fun d hd => ?_, fun d w page perm hc => by cases hc⟩
  rw [h.pgdirs] at hd
  cases hd

/-- The tables grow, or pages are taken and given back, and no entry of a page changes. -/
theorem MapInv.same (h : MapInv kind s m) (hpgdirs : vm.pgdirs = s.vm.pgdirs) (hframes : Frames kind' vm)
    (hpte : ∀ d ∈ s.vm.pgdirs, ∀ w < userPages, vm.pte d w = s.vm.pte d w)
    (hheld : ∀ f, f ∈ held ↔ kind' f = FrameKind.held) :
    MapInv kind' { vm := vm, held := held } m := by
  refine ⟨hframes, hheld, fun d hd w hw => ?_, h.lt⟩
  change d ∈ vm.pgdirs at hd
  rw [hpgdirs] at hd
  exact (hpte d hd w hw).trans (h.entry d hd w hw)

/-- One entry is written. -/
theorem MapInv.write (h : MapInv kind s m) (hpgdirs : vm.pgdirs = s.vm.pgdirs) (hframes : Frames kind' vm)
    (hpte : ∀ e ∈ s.vm.pgdirs, ∀ w < userPages,
      vm.pte e w = if e = d ∧ w = v then entryOf x else s.vm.pte e w)
    (hx : ∀ page perm, x = some (page, perm) → page < npage)
    (hheld : ∀ f, f ∈ held ↔ kind' f = FrameKind.held) :
    MapInv kind' { vm := vm, held := held } (m.set d v x) := by
  refine ⟨hframes, hheld, fun e he w hw => ?_, fun e w page perm hpage => ?_⟩
  · change e ∈ vm.pgdirs at he
    rw [hpgdirs] at he
    change vm.pte e w = _
    rw [hpte e he w hw, h.entry e he w hw]
    unfold PageMap.set
    split <;> rfl
  · unfold PageMap.set at hpage
    split at hpage
    · exact hx page perm hpage
    · exact h.lt e w page perm hpage

theorem Grows.held_iff {s t : Vm} (h : Grows kind kind' s t d sl) :
    kind' f = FrameKind.held ↔ kind f = FrameKind.held := by
  rcases h.uses f with heq | ⟨hfree, hnew⟩
  · rw [heq]
  · refine iff_of_false (fun hc => ?_) fun hc => ?_
    · rcases hnew with hnew | hnew <;> rw [hnew] at hc <;> cases hc
    · rw [hfree] at hc
      cases hc

theorem rekind_held : rekind kind vm new f = FrameKind.held ↔ new ≠ some f ∧ kind f = FrameKind.held := by
  unfold rekind
  by_cases hnew : new = some f
  · simp [hnew]
  · rw [if_neg hnew]
    split
    · next hc => simp [hnew, hc.1]
    · simp [hnew]

/-- Entries are cleared, those of `P` and no other. -/
theorem MapInv.unmap {P : Nat → Prop} (h : MapInv kind s m) (hd : d ∈ s.vm.pgdirs)
    (hu : Unmaps kind s.vm vm d P) (hnone : ∀ w, P w → m' d w = none)
    (hkeep : ∀ e w, ¬ (e = d ∧ P w) → m' e w = m e w) :
    ∃ kind', MapInv kind' { s with vm := vm } m' := by
  refine ⟨_, hu.frames, fun f => ?_, fun e he w hw => ?_, fun e w page perm hpage => ?_⟩
  · change f ∈ s.held ↔ _
    rw [rekind_held, h.held]
    simp
  · change e ∈ vm.pgdirs at he
    rw [hu.env.pgdirs] at he
    change vm.pte e w = _
    by_cases hc : e = d ∧ P w
    · obtain ⟨rfl, hP⟩ := hc
      rw [hnone w hP]
      rcases hu.only w hw with heq | hzero
      · -- an entry that is left as it is and is not valid was empty
        have hclear := hu.cleared w hw hP
        rw [heq, h.entry e he w hw] at hclear ⊢
        cases hme : m e w with
        | none => rfl
        | some y =>
            rw [hme] at hclear
            exact absurd (valid_pteCreate _ _) hclear
      · exact hzero
    · rw [hkeep e w hc, hu.kept e he w hw hc, h.entry e he w hw]
  · by_cases hc : e = d ∧ P w
    · obtain ⟨rfl, hP⟩ := hc
      rw [hnone w hP] at hpage
      cases hpage
    · rw [hkeep e w hc] at hpage
      exact h.lt e w page perm hpage

/-- `page_insert` as far as the entries are concerned: it maps the page, or it has no memory for a table and
changes no entry. -/
theorem MapInv.pageInsert {page : Nat} (perm : Perm) (h : MapInv kind s m) (hd : d ∈ s.vm.pgdirs) (hla : la < userTop)
    (hpage : kind page = FrameKind.data ∨ kind page = FrameKind.held) :
    Safe (TriOS.pageInsert s.vm d page la perm) fun r =>
      r.1 = -eNoMem ∧ (∃ kind', MapInv kind' { s with vm := r.2 } m ∧ kind' page = kind page) ∨
      r.1 = 0 ∧ ∃ kind', MapInv kind' { vm := r.2, held := s.held.erase page }
        (m.set d (la / pgSize) (some (page, perm))) := by
  have hlt : page < npage := h.frames.lt_npage (by rcases hpage with hk | hk <;> simp [hk])
  refine (pageInsert_inserts h.frames hd hla hpage).mono fun r hr => ?_
  obtain ⟨kind', t, hgrows, hr⟩ := hr
  rcases hr with rfl | ⟨hzero, hins⟩
  · refine Or.inl ⟨rfl, kind', h.same hgrows.env.pgdirs hgrows.frames hgrows.pte fun f => ?_, ?_⟩
    · rw [hgrows.held_iff]
      exact h.held f
    · rcases hgrows.uses page with heq | ⟨hfree, -⟩
      · exact heq
      · rw [hfree] at hpage
        simp at hpage
  · refine Or.inr ⟨hzero, _, h.write (hins.env.pgdirs.trans hgrows.env.pgdirs) hins.frames ?_ ?_ fun f => ?_⟩
    · intro e he w hw
      rw [hins.sets.pte e (hgrows.env.pgdirs.symm ▸ he) w hw, hgrows.pte e he w hw]
      rfl
    · rintro page' perm' hc
      cases hc
      exact hlt
    · rw [rekind_held, hgrows.held_iff, Finset.mem_erase, h.held]
      simp [eq_comm]

/-- `alloc_page` has handed out a page. -/
theorem MapInv.alloc {page : Nat} (h : MapInv kind s m) (hpage : page ∈ s.vm.free) :
    MapInv (Function.update kind page FrameKind.held)
      { vm := { s.vm with free := s.vm.free.erase page }, held := s.held ∪ {page} } m := by
  obtain ⟨hframes, hwalk⟩ := h.frames.alloc hpage
  refine h.same rfl hframes hwalk.pte fun f => ?_
  rw [Finset.mem_union, Finset.mem_singleton, h.held]
  by_cases hf : f = page
  · simp [hf]
  · simp [hf]

/-- `free_page` of a page in the hands of a caller. -/
theorem MapInv.free {page : Nat} (h : MapInv kind s m) (hpage : page ∈ s.held) :
    ∃ vm, TriOS.freePage s.vm page = done vm ∧
      ∃ kind', MapInv kind' { vm := vm, held := s.held.erase page } m := by
  obtain ⟨vm, hvm, henv, -, hframes, hwalk⟩ := freePage_held h.frames ((h.held page).1 hpage)
  refine ⟨vm, hvm, _, h.same henv.pgdirs hframes hwalk.pte fun f => ?_⟩
  rw [Finset.mem_erase, h.held]
  by_cases hf : f = page
  · simp [hf]
  · simp [hf]

/-- `setup_pgdir` -/
theorem MapInv.newRoot {page : Nat} (h : MapInv kind s m) (hpage : page ∈ s.vm.free) :
    MapInv (Function.update kind page FrameKind.root) { s with vm := s.vm.newRoot page }
      fun e w => if e = page then none else m e w := by
  have hwas := (h.frames.free page).1 hpage
  have hadds := h.frames.newRoot_adds hpage
  refine ⟨h.frames.newRoot hpage, fun f => ?_, fun e he w hw => ?_, fun e w page' perm hc => ?_⟩
  · change f ∈ s.held ↔ _
    rw [h.held]
    by_cases hf : f = page
    · subst hf
      simp [hwas]
    · rw [Function.update_of_ne hf]
  · change e ∈ insert page s.vm.pgdirs at he
    change (s.vm.newRoot page).pte e w = _
    by_cases hep : e = page
    · subst hep
      rw [if_pos rfl, hadds.pte w hw]
      rfl
    · have he' := Finset.mem_of_mem_insert_of_ne he hep
      rw [if_neg hep, hadds.walk.pte e he' w hw, h.entry e he' w hw]
  · split at hc
    · cases hc
    · exact h.lt e w page' perm hc

/-- One operation does to the page tables what `PageMap.apply` does to the map. -/
theorem PtOp.exec_inv (h : MapInv kind s m) (hc : op.Called s) :
    Safe (op.exec s) fun r => ∃ kind', MapInv kind' r.2 (m.apply (op, r.1)) := by
  cases op with
  | setupPgdir =>
      rw [PtOp.exec, setupPgdir_eq]
      cases hpick : s.vm.pmm.pick s.vm.free with
      | none =>
          dsimp only
          split
          · trivial
          · exact ⟨kind, h⟩
      | some page => exact ⟨_, h.newRoot (s.vm.pmm.pick_mem _ _ hpick)⟩
  | allocPage =>
      rw [PtOp.exec]
      cases hpick : s.vm.pmm.pick s.vm.free with
      | none =>
          rw [allocPage_none hpick]
          split
          · trivial
          · refine ⟨kind, ?_⟩
            change MapInv kind { vm := s.vm, held := s.held ∪ ∅ } m
            rw [Finset.union_empty]
            exact h
      | some page =>
          rw [allocPage_some hpick]
          exact ⟨_, h.alloc (s.vm.pmm.pick_mem _ _ hpick)⟩
  | freePage page =>
      obtain ⟨vm, hvm, hinv⟩ := h.free hc
      rw [PtOp.exec, hvm]
      exact hinv
  | getPte pgdir la create =>
      obtain ⟨hd, hla⟩ := hc
      rw [PtOp.exec]
      cases create with
      | false =>
          rw [getPte_false h.frames hd hla]
          exact ⟨kind, h⟩
      | true =>
          refine (getPte_grows h.frames hd hla).bind fun r hr => ?_
          obtain ⟨kind', hgrows, -⟩ := hr
          refine ⟨kind', h.same hgrows.env.pgdirs hgrows.frames hgrows.pte fun f => ?_⟩
          rw [hgrows.held_iff]
          exact h.held f
  | pageInsert pgdir page la perm =>
      obtain ⟨hd, hla, hpage⟩ := hc
      rw [h.held, ← h.frames.data_iff] at hpage
      rw [PtOp.exec]
      refine (h.pageInsert perm hd hla hpage.symm).bind fun r hr => ?_
      obtain ⟨ret, vm⟩ := r
      rcases hr with ⟨hret, kind', hinv, -⟩ | ⟨hret, kind', hinv⟩
      · dsimp only at hret hinv ⊢
        refine ⟨kind', ?_⟩
        rw [PageMap.apply, hret, if_neg eNoMem_ne_zero, if_neg eNoMem_ne_zero]
        exact hinv
      · dsimp only at hret hinv ⊢
        refine ⟨kind', ?_⟩
        rw [PageMap.apply, hret, if_pos rfl, if_pos rfl]
        exact hinv
  | pageRemove pgdir la =>
      obtain ⟨vm, hvm, hunmaps⟩ := pageRemove_unmaps h.frames hc.1 hc.2
      rw [PtOp.exec, hvm]
      exact h.unmap hc.1 hunmaps (fun w hw => if_pos ⟨rfl, hw⟩) fun e w hne => if_neg hne
  | unmapRange pgdir start stop =>
      obtain ⟨hd, hstart, hstop, huser⟩ := hc
      obtain ⟨vm, hvm, hunmaps⟩ := unmapRange_unmaps h.frames hd hstart hstop huser
      rw [PtOp.exec, hvm]
      exact h.unmap hd hunmaps (fun w hw => if_pos ⟨rfl, hw⟩) fun e w hne => if_neg hne
  | pgdirAllocPage pgdir la perm =>
      obtain ⟨hd, hla⟩ := hc
      rw [PtOp.exec]
      unfold TriOS.pgdirAllocPage
      cases hpick : s.vm.pmm.pick s.vm.free with
      | none =>
          rw [allocPage_none hpick]
          split
          · trivial
          · exact ⟨kind, h⟩
      | some page =>
          have hpage := s.vm.pmm.pick_mem _ _ hpick
          have halloc := h.alloc hpage
          have hnot : page ∉ s.held := by
            rw [h.held, (h.frames.free page).1 hpage]
            simp
          have herase : (s.held ∪ {page}).erase page = s.held := by
            ext f
            by_cases hf : f = page
            · simp [hf, hnot]
            · simp [hf]
          rw [allocPage_some hpick, bind_done]
          dsimp only
          have hins := halloc.pageInsert perm hd hla (Or.inr (Function.update_self page _ kind))
          cases hx : TriOS.pageInsert { s.vm with free := s.vm.free.erase page } pgdir page la perm with
          | done r =>
              obtain ⟨ret, vm⟩ := r
              rcases hins.of_done hx with ⟨hret, kind', hinv, -⟩ | ⟨hret, kind', hinv⟩
              · -- the page goes back when there is no memory for its table
                dsimp only at hret hinv
                obtain ⟨vm', hvm', hfree⟩ := hinv.free (Finset.mem_union_right s.held (Finset.mem_singleton_self page))
                dsimp only at hvm' hfree
                rw [herase] at hfree
                rw [bind_done]
                dsimp only
                rw [hret, if_pos eNoMem_ne_zero, hvm']
                exact hfree
              · dsimp only at hret hinv
                rw [herase] at hinv
                rw [bind_done]
                dsimp only
                rw [hret, if_neg (by simp)]
                exact ⟨kind', hinv⟩
          | panic => trivial
          | wrap => exact absurd hx hins.ne_wrap
          | fuel => exact absurd hx hins.ne_fuel

/-! ## An operation returns -/

/-- `get_pte` returns as long as nothing is swapped out. -/
theorem getPte_returns {s : Vm} (h : Frames kind s) (hd : d ∈ s.pgdirs) (hla : la < userTop)
    (hswap : s.swapInitOk = false) : ∃ r, getPte s d la true = done r := by
  have hsl := div_lt_tables hla
  have hdir : ∀ {kind : Nat → FrameKind} {s : Vm} {q : Nat}, Frames kind s → d ∈ s.pgdirs →
      s.swapInitOk = false → s.next d (la / ptSize / nPteEntry) = some q →
      ∃ r, getPte s d la true = done r := by
    intro kind s q h hd hswap hq
    cases hp : s.next q (la / ptSize % nPteEntry) with
    | some p => exact ⟨_, getPte_of_pt h hd hla (show s.pt d (la / ptSize) = some p by rw [Vm.pt, hq]; exact hp)⟩
    | none =>
        rw [getPte_newTable h hd hla hq hp, hswap]
        cases s.pmm.pick s.free with
        | none => exact ⟨_, rfl⟩
        | some page => exact ⟨_, rfl⟩
  cases hq : s.next d (la / ptSize / nPteEntry) with
  | some q => exact hdir h hd hswap hq
  | none =>
      rw [getPte_newDir h hd hla hq, hswap]
      cases hpick : s.pmm.pick s.free with
      | none => exact ⟨_, rfl⟩
      | some page =>
          have hpage := s.pmm.pick_mem _ _ hpick
          have hentry := (h.newDir_adds hd hq hpage).next d hd _ (div_lt_userDirs hsl)
          rw [if_pos ⟨rfl, rfl⟩] at hentry
          exact hdir (h.newDir_grows hd hsl hq hpage).frames hd hswap hentry

theorem pageInsert_returns {s : Vm} {page : Nat} (perm : Perm) (h : Frames kind s) (hd : d ∈ s.pgdirs)
    (hla : la < userTop) (hpage : kind page = FrameKind.data ∨ kind page = FrameKind.held)
    (hswap : s.swapInitOk = false) : ∃ r, pageInsert s d page la perm = done r := by
  obtain ⟨⟨ptep, t⟩, hget⟩ := getPte_returns h hd hla hswap
  obtain ⟨kind', hgrows, htable⟩ := (getPte_grows h hd hla).of_done hget
  unfold pageInsert
  rw [hget, bind_done]
  cases ptep with
  | none => exact ⟨_, rfl⟩
  | some x =>
      obtain ⟨p, i⟩ := x
      obtain ⟨hp, hi⟩ := htable _ rfl
      dsimp only at hp hi hgrows ⊢
      subst hi
      rw [← div_ptSize] at hp
      have hpage' : kind' page = FrameKind.data ∨ kind' page = FrameKind.held := by
        rcases hgrows.uses page with heq | ⟨hfree, -⟩
        · rwa [heq]
        · rw [hfree] at hpage
          simp at hpage
      have hlt : page < npage := hgrows.frames.lt_npage (by rcases hpage' with hk | hk <;> simp [hk])
      obtain ⟨r, hr, -⟩ :=
        replacePte_inserts hgrows.frames hp (div_lt_pages hla) (frame_insert perm hlt) hpage'
      exact ⟨_, by rw [hr]; rfl⟩

/-- Where nothing is swapped out every operation returns. -/
theorem PtOp.exec_returns (h : MapInv kind s m) (hc : op.Called s) (hswap : s.vm.swapInitOk = false) :
    ∃ r, op.exec s = done r := by
  have hinsert : ∀ {s : MmState} {kind : Nat → FrameKind} {page d la : Nat} (perm : Perm), MapInv kind s m →
      d ∈ s.vm.pgdirs → la < userTop → (kind page = FrameKind.data ∨ kind page = FrameKind.held) →
      s.vm.swapInitOk = false → ∃ r, TriOS.pageInsert s.vm d page la perm = done r :=
    fun perm h hd hla hpage hswap => pageInsert_returns perm h.frames hd hla hpage hswap
  cases op with
  | setupPgdir =>
      rw [PtOp.exec, setupPgdir_eq, hswap]
      cases s.vm.pmm.pick s.vm.free with
      | none => exact ⟨_, rfl⟩
      | some page => exact ⟨_, rfl⟩
  | allocPage =>
      rw [PtOp.exec]
      cases hpick : s.vm.pmm.pick s.vm.free with
      | none => exact ⟨_, by rw [allocPage_none hpick, hswap]; rfl⟩
      | some page => exact ⟨_, by rw [allocPage_some hpick]; rfl⟩
  | freePage page =>
      obtain ⟨vm, hvm, -⟩ := h.free hc
      exact ⟨_, by rw [PtOp.exec, hvm]; rfl⟩
  | getPte pgdir la create =>
      obtain ⟨hd, hla⟩ := hc
      rw [PtOp.exec]
      cases create with
      | false => exact ⟨_, by rw [getPte_false h.frames hd hla]; rfl⟩
      | true =>
          obtain ⟨r, hr⟩ := getPte_returns h.frames hd hla hswap
          exact ⟨_, by rw [hr]; rfl⟩
  | pageInsert pgdir page la perm =>
      obtain ⟨hd, hla, hpage⟩ := hc
      rw [h.held, ← h.frames.data_iff] at hpage
      obtain ⟨r, hr⟩ := hinsert perm h hd hla hpage.symm hswap
      exact ⟨_, by rw [PtOp.exec, hr]; rfl⟩
  | pageRemove pgdir la =>
      obtain ⟨vm, hvm, -⟩ := pageRemove_unmaps h.frames hc.1 hc.2
      exact ⟨_, by rw [PtOp.exec, hvm]; rfl⟩
  | unmapRange pgdir start stop =>
      obtain ⟨hd, hstart, hstop, huser⟩ := hc
      obtain ⟨vm, hvm, -⟩ := unmapRange_unmaps h.frames hd hstart hstop huser
      exact ⟨_, by rw [PtOp.exec, hvm]; rfl⟩
  | pgdirAllocPage pgdir la perm =>
      obtain ⟨hd, hla⟩ := hc
      rw [PtOp.exec]
      unfold TriOS.pgdirAllocPage
      cases hpick : s.vm.pmm.pick s.vm.free with
      | none => exact ⟨_, by rw [allocPage_none hpick, hswap]; rfl⟩
      | some page =>
          have halloc := h.alloc (s.vm.pmm.pick_mem _ _ hpick)
          have hheld : Function.update kind page FrameKind.held page = FrameKind.held :=
            Function.update_self page _ kind
          obtain ⟨⟨ret, vm⟩, hr⟩ := hinsert perm halloc hd hla (Or.inr hheld) hswap
          have hins := (halloc.pageInsert perm hd hla (Or.inr hheld)).of_done hr
          dsimp only at hr
          rw [allocPage_some hpick, bind_done]
          dsimp only
          rw [hr, bind_done]
          dsimp only
          rcases hins with ⟨hret, kind', hinv, -⟩ | ⟨hret, -⟩
          · dsimp only at hret hinv
            obtain ⟨vm', hvm', -⟩ := hinv.free (Finset.mem_union_right s.held (Finset.mem_singleton_self page))
            dsimp only at hvm'
            exact ⟨_, by rw [hret, if_pos eNoMem_ne_zero, hvm']; rfl⟩
          · dsimp only at hret
            exact ⟨_, by rw [hret, if_neg (by simp)]; rfl⟩

/-! ## Runs -/

theorem PageMap.after_snoc (ops : List (PtOp × PtRes)) (l : PtOp × PtRes) :
    PageMap.after (ops ++ [l]) = (PageMap.after ops).apply l := by
  unfold PageMap.after
  rw [List.foldl_append, List.foldl_cons, List.foldl_nil]

theorem MapInv.run (h0 : s.Boot) (hrun : Run PtStep s ops t) : ∃ kind, MapInv kind t (PageMap.after ops) := by
  refine hrun.trace_invariant (fun ops t => ∃ kind, MapInv kind t (PageMap.after ops)) ?_ h0.mapInv
  rintro ops t ⟨op, res⟩ u ⟨kind, hinv⟩ ⟨hcalled, hstep⟩
  rw [PageMap.after_snoc]
  exact (PtOp.exec_inv hinv hcalled).of_done hstep

/-- The flags of an entry are the permissions that it was made with. -/
theorem flags_pteCreate (page : Nat) (perm : Perm) :
    pteCreate page (pteV ||| perm.bits) &&& flagMask = pteV ||| perm.bits := by
  apply UInt64.toBitVec_inj.1
  apply BitVec.eq_of_getLsbD_eq
  intro i hi
  have hperm : perm.bits.toBitVec.getLsbD i = (perm.bits.toBitVec.getLsbD i && decide (i < 10)) := by
    conv_lhs => rw [← perm.flags, UInt64.toBitVec_and, BitVec.getLsbD_and, flagMask_bit]
  simp only [UInt64.toBitVec_and, UInt64.toBitVec_or, BitVec.getLsbD_and, BitVec.getLsbD_or, flagMask_bit,
    pteCreate_bit, pteV_bit]
  by_cases hlow : i < 10
  · have h10 : ¬ 10 ≤ i := by omega
    simp [hlow, h10]
  · have h0 : i ≠ 0 := by omega
    rw [hperm]
    simp [hlow, h0]

/-- What `get_page` finds. -/
theorem MapInv.getPage_eq (h : MapInv kind s m) (hd : d ∈ s.vm.pgdirs) (hla : la < userTop) :
    ∃ ptep, getPage s.vm d la = done ((m d (la / pgSize)).map Prod.fst, ptep, s.vm) ∧
      ∀ page perm, m d (la / pgSize) = some (page, perm) →
        ∃ f i, ptep = some (f, i) ∧ s.vm.mem f i &&& flagMask = pteV ||| perm.bits := by
  have hv := div_lt_pages hla
  have hentry := h.entry d hd _ hv
  unfold getPage
  rw [getPte_false h.frames hd hla, bind_done]
  cases hpt : s.vm.pt d (la / ptSize) with
  | none =>
      rw [Vm.pte_of_none (by rw [div_ptSize]; exact hpt)] at hentry
      cases hm : m d (la / pgSize) with
      | none => exact ⟨none, rfl, fun page perm hc => by cases hc⟩
      | some x =>
          obtain ⟨page, perm⟩ := x
          rw [hm] at hentry
          exact absurd (hentry ▸ valid_pteCreate _ _) not_valid_zero
  | some p =>
      rw [Vm.pte_of_pt (by rw [div_ptSize]; exact hpt)] at hentry
      dsimp only [Option.map_some]
      rw [hentry]
      cases hm : m d (la / pgSize) with
      | none =>
          refine ⟨some (p, la / pgSize % nPteEntry), ?_, fun page perm hc => by cases hc⟩
          rw [if_neg]
          · rfl
          · exact not_valid_zero
      | some x =>
          obtain ⟨page, perm⟩ := x
          have hlt := h.lt _ _ _ _ hm
          refine ⟨some (p, la / pgSize % nPteEntry), ?_, ?_⟩
          · have hvalid : Pte.Valid (entryOf (some (page, perm))) := valid_pteCreate _ _
            have hpage : pte2page (entryOf (some (page, perm))) = done page :=
              pte2page_eq (frame_insert perm hlt) hlt
            rw [if_pos hvalid, hpage]
            rfl
          · rintro page' perm' hc
            cases hc
            refine ⟨p, _, rfl, ?_⟩
            rw [hentry, hm]
            exact flags_pteCreate page perm

/-- In every reachable state `get_page` finds what the map has, every operation does to the page tables what
it does to the map, and `unmap_range` returns for every range of user pages. -/
theorem page_table_is_map (h0 : s.Boot) (hrun : Run PtStep s ops t) :
    (∀ d ∈ t.vm.pgdirs, ∀ la < userTop, ∃ ptep,
      getPage t.vm d la = done ((PageMap.after ops d (la / pgSize)).map Prod.fst, ptep, t.vm) ∧
      ∀ page perm, PageMap.after ops d (la / pgSize) = some (page, perm) →
        ∃ f i, ptep = some (f, i) ∧ t.vm.mem f i &&& flagMask = pteV ||| perm.bits) ∧
    (∀ op : PtOp, op.Called t → Safe (op.exec t) fun r => Run PtStep s (ops ++ [(op, r.1)]) r.2) ∧
    (t.vm.swapInitOk = false → ∀ op : PtOp, op.Called t → ∃ r, op.exec t = done r) ∧
    ∀ d ∈ t.vm.pgdirs, ∀ start stop, start % pgSize = 0 → stop % pgSize = 0 → UserAccess start stop →
      ∃ vm, unmapRange t.vm d start stop = done vm := by
  obtain ⟨kind, hinv⟩ := MapInv.run h0 hrun
  refine ⟨fun d hd la hla => hinv.getPage_eq hd hla, fun op hc => ?_, fun hswap op hc =>
    PtOp.exec_returns hinv hc hswap, fun d hd start stop hstart hstop huser => ?_⟩
  · have hsafe := PtOp.exec_inv hinv hc
    cases hx : op.exec t with
    | done r => exact Run.snoc hrun ⟨hc, hx⟩
    | panic => trivial
    | wrap => exact absurd hx hsafe.ne_wrap
    | fuel => exact absurd hx hsafe.ne_fuel
  · obtain ⟨vm, hvm, -⟩ := unmapRange_unmaps hinv.frames hd hstart hstop huser
    exact ⟨vm, hvm⟩

/-- A page directory with one page, which is mapped a second time in the next slot and removed where it was
first. -/
theorem page_table_is_map_fourFrames : ∃ t, Run PtStep fourFrames
    [(PtOp.setupPgdir, PtRes.page (some 1)),
      (PtOp.pgdirAllocPage 1 0x200000 (faultPerm vmWrite), PtRes.page (some 2)),
      (PtOp.pageInsert 1 2 0x201000 (faultPerm 0), PtRes.ret 0),
      (PtOp.pageRemove 1 0x200000, PtRes.unit)] t ∧
    ∃ ptep, getPage t.vm 1 0x201000 = done (some 2, ptep, t.vm) := by
  have hrun : ∃ t, Run PtStep fourFrames
      [(PtOp.setupPgdir, PtRes.page (some 1)),
        (PtOp.pgdirAllocPage 1 0x200000 (faultPerm vmWrite), PtRes.page (some 2)),
        (PtOp.pageInsert 1 2 0x201000 (faultPerm 0), PtRes.ret 0),
        (PtOp.pageRemove 1 0x200000, PtRes.unit)] t ∧ 1 ∈ t.vm.pgdirs :=
    ⟨_, Run.cons ⟨trivial, rfl⟩ (Run.cons ⟨⟨Finset.mem_insert_self _ _, by decide⟩, rfl⟩
      (Run.cons ⟨⟨Finset.mem_insert_self _ _, by decide, Or.inr ⟨(1, 0x200), mem_maps.2
        ⟨Finset.mem_insert_self _ _, by decide, by decide⟩⟩⟩, rfl⟩
      (Run.cons ⟨⟨Finset.mem_insert_self _ _, by decide⟩, rfl⟩ Run.nil))), Finset.mem_insert_self _ _⟩
  obtain ⟨t, hrun, hd⟩ := hrun
  obtain ⟨ptep, hpage, -⟩ := (page_table_is_map fourFrames_boot hrun).1 1 hd 0x201000 (by decide)
  exact ⟨t, hrun, ptep, hpage⟩

end TriOS
