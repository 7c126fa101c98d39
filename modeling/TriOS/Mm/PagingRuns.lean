import TriOS.Mm.ExitRange
import TriOS.Library.Transition

/-!
# PagingRuns — the count of a page over all runs

The operations on address spaces as a step relation, with what their callers promise. `MmInv` holds in
every reachable state; `ref` of a page is then the number of entries that map it, and `MmOp.Moves` says
where a page may go in one step.
-/

namespace TriOS

open Outcome Transition

variable {kind kind' : Nat → FrameKind} {d e f g p i v w sl la page : Nat}

/-- The memory, and the pages that callers of `alloc_page` have in their hands. -/
structure MmState where
  vm : Vm
  held : Finset Nat

/-- The operations. `insertVma` is what `dup_mmap` does with an area of its source before it copies the
pages. -/
inductive MmOp where
  | setupPgdir
  | mmMap (pgdir addr len : Nat) (flags : UInt32) (kmallocOk : Bool)
  | insertVma (dest source : Nat) (vma : Vma)
  | allocPage
  | freePage (page : Nat)
  | pageInsert (pgdir page la : Nat) (perm : Perm)
  | pageRemove (pgdir la : Nat)
  | unmapRange (pgdir start stop : Nat)
  | pgdirAllocPage (pgdir la : Nat) (perm : Perm)
  | copyRange (dest source start stop : Nat)
  | doPgfault (pgdir addr : Nat)
  | exit (pgdir : Nat)

/-- One operation. -/
def MmOp.exec (s : MmState) : MmOp → Outcome MmState
  | setupPgdir => do
      let (_, vm) ← TriOS.setupPgdir s.vm
      pure { s with vm := vm }
  | mmMap pgdir addr len flags kmallocOk => do
      let (_, vm) ← TriOS.mmMap s.vm pgdir addr len flags kmallocOk
      pure { s with vm := vm }
  | insertVma dest _ vma => do
      let vmas ← insertVmaStruct (s.vm.mmap dest) vma
      pure { s with vm := s.vm.setMmap dest vmas }
  | allocPage => do
      let (page, vm) ← TriOS.allocPage s.vm
      pure { vm := vm, held := s.held ∪ page.toFinset }
  | freePage page => do
      let vm ← TriOS.freePage s.vm page
      pure { vm := vm, held := s.held.erase page }
  | pageInsert pgdir page la perm => do
      let (ret, vm) ← TriOS.pageInsert s.vm pgdir page la perm
      pure { vm := vm, held := if ret = 0 then s.held.erase page else s.held }
  | pageRemove pgdir la => do
      let vm ← TriOS.pageRemove s.vm pgdir la
      pure { s with vm := vm }
  | unmapRange pgdir start stop => do
      let vm ← TriOS.unmapRange s.vm pgdir start stop
      pure { s with vm := vm }
  | pgdirAllocPage pgdir la perm => do
      let (_, vm) ← TriOS.pgdirAllocPage s.vm pgdir la perm
      pure { s with vm := vm }
  | copyRange dest source start stop => do
      let (_, vm) ← TriOS.copyRange s.vm dest source start stop
      pure { s with vm := vm }
  | doPgfault pgdir addr => do
      let (_, vm) ← TriOS.doPgfault s.vm pgdir addr
      pure { s with vm := vm }
  | exit pgdir => do
      let vm ← teardown s.vm pgdir
      pure { s with vm := vm }

/-- What the callers promise: address spaces exist, pages are mapped inside areas only, and what is
inserted is a page of data. -/
def MmOp.Called (s : MmState) : MmOp → Prop
  | setupPgdir => True
  | mmMap pgdir _ _ _ _ => pgdir ∈ s.vm.pgdirs
  | insertVma dest source vma => dest ∈ s.vm.pgdirs ∧ source ∈ s.vm.pgdirs ∧ vma ∈ s.vm.mmap source
  | allocPage => True
  | freePage page => page ∈ s.held
  | pageInsert pgdir page la _ => pgdir ∈ s.vm.pgdirs ∧ InVmas (s.vm.mmap pgdir) (la / pgSize) ∧
      (page ∈ s.held ∨ (s.vm.maps page).Nonempty)
  | pageRemove pgdir la => pgdir ∈ s.vm.pgdirs ∧ la < userTop
  | unmapRange pgdir _ _ => pgdir ∈ s.vm.pgdirs
  | pgdirAllocPage pgdir la _ => pgdir ∈ s.vm.pgdirs ∧ InVmas (s.vm.mmap pgdir) (la / pgSize)
  | copyRange dest source start stop => dest ∈ s.vm.pgdirs ∧ source ∈ s.vm.pgdirs ∧
      ∀ w, Between start stop w → InVmas (s.vm.mmap dest) w
  | doPgfault pgdir _ => pgdir ∈ s.vm.pgdirs
  | exit pgdir => pgdir ∈ s.vm.pgdirs

/-- A step of the system. -/
def MmStep : MmState → MmOp → MmState → Prop :=
  Guarded (fun s op => op.Called s) (StepOf MmOp.exec)

/-- The memory before the first address space is made. -/
structure MmState.Boot (s : MmState) : Prop where
  pool : s.vm.free ⊆ s.vm.pmm.pool
  ref : ∀ f ∈ s.vm.free, s.vm.ref f = 0
  pgdirs : s.vm.pgdirs = ∅
  held : s.held = ∅
  boot : s.vm.bootPgdir ∉ s.vm.free ∧ ∀ i < userDirs, ¬ (s.vm.mem s.vm.bootPgdir i).Valid

/-- The invariant of the system. -/
structure MmInv (kind : Nat → FrameKind) (s : MmState) : Prop where
  frames : Frames kind s.vm
  held : ∀ f, f ∈ s.held ↔ kind f = FrameKind.held
  vmas : ∀ d ∈ s.vm.pgdirs, ∀ vma ∈ s.vm.mmap d, vma.Ok
  within : ∀ d ∈ s.vm.pgdirs, ∀ w < userPages, s.vm.page d w ≠ none → InVmas (s.vm.mmap d) w

variable {s t u : MmState} {ops : List MmOp} {op : MmOp}

theorem MmState.Boot.inv (h : s.Boot) : ∃ kind, MmInv kind s := by
  have hpg : ∀ d, d ∉ s.vm.pgdirs := fun d => by simp [h.pgdirs]
  refine ⟨fun f => if f ∈ s.vm.free then FrameKind.free else FrameKind.other, ?_, ?_, ?_, ?_⟩
  · refine ⟨?_, ?_, ?_, ?_, ?_, ?_, ?_, ?_, ?_, h.boot.2⟩
    · intro f hf
      by_cases hfree : f ∈ s.vm.free
      · exact h.pool hfree
      · exact absurd (if_neg hfree) hf
    · intro f
      by_cases hfree : f ∈ s.vm.free <;> simp [hfree]
    · intro d
      by_cases hfree : d ∈ s.vm.free <;> simp [hfree, hpg]
    · intro p d i
      by_cases hfree : p ∈ s.vm.free <;> simp [hfree, hpg]
    · intro p d sl
      by_cases hfree : p ∈ s.vm.free <;> simp [hfree, hpg]
    · intro d v f hd
      exact absurd hd (hpg d)
    · intro f hf
      by_cases hfree : f ∈ s.vm.free <;> simp [hfree] at hf
    · intro f hf
      by_cases hfree : f ∈ s.vm.free
      · exact h.ref f hfree
      · simp [hfree] at hf
    · exact if_neg h.boot.1
  · intro f
    by_cases hfree : f ∈ s.vm.free <;> simp [hfree, h.held]
  · intro d hd
    exact absurd hd (hpg d)
  · intro d hd
    exact absurd hd (hpg d)

/-! ## Areas -/

theorem checkVmaOverlap_safe (prev next : Vma) : Safe (checkVmaOverlap prev next) fun _ => True := by
  refine Safe.assert_bind fun _ => Safe.assert_bind fun _ => ?_
  unfold assert
  split <;> trivial

/-- The area that is inserted is in the list afterwards, and no area goes. -/
theorem insertVmaStruct_spec (vmas : List Vma) (vma : Vma) :
    Safe (insertVmaStruct vmas vma) fun vmas' => ∀ v, v ∈ vmas' ↔ v = vma ∨ v ∈ vmas := by
  unfold insertVmaStruct
  refine Safe.assert_bind fun _ => Safe.bind (P := fun _ => True) ?_ fun _ _ =>
    Safe.bind (P := fun _ => True) ?_ fun _ _ => ?_
  · cases (vmasBefore vmas vma).getLast? with
    | none => trivial
    | some prev => exact checkVmaOverlap_safe prev vma
  · cases (vmasAfter vmas vma).head? with
    | none => trivial
    | some next => exact checkVmaOverlap_safe vma next
  · intro v
    have hsplit : v ∈ vmas ↔ v ∈ vmasBefore vmas vma ∨ v ∈ vmasAfter vmas vma := by
      conv_lhs => rw [← List.takeWhile_append_dropWhile (p := fun v => v.start ≤ vma.start) (l := vmas)]
      rw [List.mem_append]
      rfl
    rw [hsplit, List.mem_append, List.mem_cons]
    tauto

theorem findVma_inVmas {vmas : List Vma} {vma : Vma} {addr : Nat} (h : findVma vmas addr = some vma)
    (hok : ∀ vma ∈ vmas, vma.Ok) : InVmas vmas (addr / pgSize) := by
  have hin := List.mem_of_find?_eq_some h
  have hrange := List.find?_some h
  obtain ⟨hstart, hstop, -⟩ := hok vma hin
  refine ⟨vma, hin, ?_⟩
  simp only [decide_eq_true_eq] at hrange
  unfold Between pgSize at *
  omega

theorem InVmas.mono {vmas vmas' : List Vma} (h : InVmas vmas w) (hsub : ∀ v ∈ vmas, v ∈ vmas') :
    InVmas vmas' w := by
  obtain ⟨vma, hin, hw⟩ := h
  exact ⟨vma, hsub vma hin, hw⟩

/-- A page of an area is a user page. -/
theorem InVmas.lt {vmas : List Vma} (h : InVmas vmas (la / pgSize)) (hok : ∀ vma ∈ vmas, vma.Ok) :
    la < userTop := by
  obtain ⟨vma, hin, -, hlt⟩ := h
  obtain ⟨-, -, -, -, htop⟩ := hok vma hin
  unfold pgSize at hlt
  unfold userTop at *
  omega

/-! ## One step -/

/-- A page directory, a level-0 directory or a page table of an address space. -/
def FrameKind.IsTable (k : FrameKind) : Prop :=
  k = FrameKind.root ∨ (∃ d i, k = FrameKind.dir d i) ∨ ∃ d sl, k = FrameKind.table d sl

/-- What may become of a frame in one operation. -/
def MmOp.Moves (op : MmOp) (f : Nat) (k k' : FrameKind) : Prop :=
  k' = k ∨
  (k = FrameKind.free ∨ k = FrameKind.data) ∧ (k' = FrameKind.free ∨ k' = FrameKind.data ∨ k'.IsTable) ∨
  k = FrameKind.held ∧ k' = FrameKind.data ∨
  k = FrameKind.free ∧ k' = FrameKind.held ∧ op = allocPage ∨
  k = FrameKind.held ∧ k' = FrameKind.free ∧ op = freePage f ∨
  k.IsTable ∧ (k' = FrameKind.free ∨ k' = FrameKind.other)

theorem Reused.moves {k k' : FrameKind} (h : Reused d k k') (op : MmOp) (f : Nat) : op.Moves f k k' := by
  rcases h with heq | ⟨hk, hk'⟩
  · exact Or.inl heq
  · refine Or.inr (Or.inl ⟨hk, hk'.imp id (Or.imp id ?_)⟩)
    rintro (⟨i, hi⟩ | ⟨sl, hsl⟩)
    · exact Or.inr (Or.inl ⟨d, i, hi⟩)
    · exact Or.inr (Or.inr ⟨d, sl, hsl⟩)

/-- Pages of one address space come and go; the pages in the hands of the callers are `held`. -/
theorem MmInv.reuses {vm : Vm} {hand : Option Nat} {held : Finset Nat} (h : MmInv kind s)
    (hd : d ∈ s.vm.pgdirs)
    (hr : Reuses kind kind' s.vm vm d (fun w => InVmas (s.vm.mmap d) w) hand)
    (hheld : ∀ f, hand = some f → (f ∈ held ↔ kind' f = FrameKind.held))
    (hsame : ∀ f, hand ≠ some f → (f ∈ held ↔ f ∈ s.held)) :
    MmInv kind' { vm := vm, held := held } := by
  refine ⟨hr.frames, ?_, ?_, ?_⟩
  · intro f
    by_cases hf : hand = some f
    · exact hheld f hf
    · change f ∈ held ↔ _
      rw [hsame f hf, h.held]
      rcases hr.uses f hf with heq | ⟨hk, hk'⟩
      · rw [heq]
      · have h1 : kind f ≠ FrameKind.held := by rcases hk with hk | hk <;> simp [hk]
        have h2 : kind' f ≠ FrameKind.held := by
          rcases hk' with hk' | hk' | ⟨i, hk'⟩ | ⟨sl, hk'⟩ <;> simp [hk']
        exact iff_of_false h1 h2
  · intro e he
    change e ∈ vm.pgdirs at he
    change ∀ vma ∈ vm.mmap e, vma.Ok
    rw [hr.env.pgdirs] at he
    rw [hr.env.mmap]
    exact h.vmas e he
  · intro e he w hw hpage
    change e ∈ vm.pgdirs at he
    change vm.page e w ≠ none at hpage
    change InVmas (vm.mmap e) w
    rw [hr.env.pgdirs] at he
    rw [hr.env.mmap]
    by_cases hed : e = d
    · subst hed
      by_cases hsame : vm.page e w = s.vm.page e w
      · exact h.within e he w hw (hsame ▸ hpage)
      · exact (hr.within w hw hsame).resolve_left hpage
    · refine h.within e he w hw fun hc => hpage ?_
      rwa [Vm.page, hr.others e he hed w hw]

/-- An operation that has no page in its hands keeps the invariant. -/
theorem MmInv.reuses_none {vm : Vm} (h : MmInv kind s) (hd : d ∈ s.vm.pgdirs) (op : MmOp)
    (hr : Reuses kind kind' s.vm vm d (fun w => InVmas (s.vm.mmap d) w) none) :
    ∃ kind', MmInv kind' { s with vm := vm } ∧ ∀ f, op.Moves f (kind f) (kind' f) :=
  ⟨kind', h.reuses hd hr (fun f hf => by cases hf) (fun _ _ => Iff.rfl),
    fun f => (hr.uses f (by simp)).moves op f⟩

/-- Areas are added to an address space. -/
theorem MmInv.setMmap {vmas : List Vma} (h : MmInv kind s) (hd : d ∈ s.vm.pgdirs)
    (hsub : ∀ v ∈ s.vm.mmap d, v ∈ vmas) (hok : ∀ v ∈ vmas, v.Ok) :
    MmInv kind { s with vm := s.vm.setMmap d vmas } := by
  obtain ⟨hpool, hfree, hroot, hdir, htable, hdata, href, hunref, hboot⟩ := h.frames
  refine ⟨⟨hpool, hfree, hroot, hdir, htable, hdata, href, hunref, hboot⟩, h.held, ?_, ?_⟩
  · intro e he
    change ∀ v ∈ Function.update s.vm.mmap d vmas e, v.Ok
    by_cases hed : e = d
    · subst hed
      rwa [Function.update_self]
    · rw [Function.update_of_ne hed]
      exact h.vmas e he
  · intro e he w hw hpage
    change InVmas (Function.update s.vm.mmap d vmas e) w
    by_cases hed : e = d
    · subst hed
      rw [Function.update_self]
      exact (h.within e he w hw hpage).mono hsub
    · rw [Function.update_of_ne hed]
      exact h.within e he w hw hpage

/-- `setup_pgdir` keeps the invariant. -/
theorem MmInv.setupPgdir (h : MmInv kind s) (hpage : page ∈ s.vm.free) :
    MmInv (Function.update kind page FrameKind.root) { s with vm := s.vm.newRoot page } := by
  have hwas := (h.frames.free page).1 hpage
  have hadds := h.frames.newRoot_adds hpage
  refine ⟨h.frames.newRoot hpage, ?_, ?_, ?_⟩
  · intro f
    change f ∈ s.held ↔ _
    rw [h.held]
    by_cases hf : f = page
    · subst hf
      simp [hwas]
    · rw [Function.update_of_ne hf]
  · intro e he
    change e ∈ insert page s.vm.pgdirs at he
    change ∀ v ∈ Function.update s.vm.mmap page [] e, v.Ok
    by_cases hep : e = page
    · subst hep
      simp
    · rw [Function.update_of_ne hep]
      exact h.vmas e (Finset.mem_of_mem_insert_of_ne he hep)
  · intro e he w hw hne
    change e ∈ insert page s.vm.pgdirs at he
    change (s.vm.newRoot page).page e w ≠ none at hne
    change InVmas (Function.update s.vm.mmap page [] e) w
    by_cases hep : e = page
    · subst hep
      exact absurd (by rw [Vm.page, hadds.pte w hw, Pte.frame_zero]) hne
    · have he' := Finset.mem_of_mem_insert_of_ne he hep
      rw [Function.update_of_ne hep]
      refine h.within e he' w hw fun hc => hne ?_
      rwa [Vm.page, hadds.walk.pte e he' w hw]

theorem TearsDown.page_eq {σ : Shape} {vm vm' : Vm} (h : TearsDown kind vm vm' d σ) (he : e ∈ vm.pgdirs)
    (hne : e ≠ d) (hw : w < userPages) : vm'.page e w = vm.page e w := by
  rw [Vm.page, h.others e he hne w hw, Vm.page]

/-- What the end of an address space makes of a frame. -/
theorem rootFreed_released (σ : Shape) (m : Vm) (hd : kind d = FrameKind.root) (f : Nat) :
    rootFreed (σ.uses (rekind kind m none) d) d f = kind f ∨
    kind f = FrameKind.data ∧ rootFreed (σ.uses (rekind kind m none) d) d f = FrameKind.free ∨
    (kind f).IsTable ∧ (rootFreed (σ.uses (rekind kind m none) d) d f = FrameKind.free ∨
      rootFreed (σ.uses (rekind kind m none) d) d f = FrameKind.other) := by
  have hrekind : rekind kind m none f = kind f ∨
      kind f = FrameKind.data ∧ rekind kind m none f = FrameKind.free := by
    unfold rekind
    rw [if_neg (by simp)]
    split
    · next hc => exact Or.inr ⟨hc.1, rfl⟩
    · exact Or.inl rfl
  have hkeep : ∀ k, k ≠ FrameKind.free → rekind kind m none f = k → kind f = k := by
    intro k hk hf
    rcases hrekind with heq | ⟨-, hfree⟩
    · exact heq.symm.trans hf
    · exact absurd (hf.symm.trans hfree) hk
  rcases rootFreed_cases (σ.uses (rekind kind m none) d) d f with ⟨rfl, hk⟩ | ⟨-, hwas, hk⟩ | ⟨-, -, -, hk⟩
  · exact Or.inr (Or.inr ⟨Or.inl hd, Or.inl hk⟩)
  · -- a directory or a table that is left
    refine Or.inr (Or.inr ⟨?_, Or.inr hk⟩)
    rcases hwas with ⟨i, hi⟩ | ⟨sl, hsl⟩
    · exact Or.inr (Or.inl ⟨d, i, hkeep _ (by simp) (Shape.uses_eq_dir.1 hi).1⟩)
    · exact Or.inr (Or.inr ⟨d, sl, hkeep _ (by simp) (Shape.uses_eq_table.1 hsl).1⟩)
  · rw [hk]
    rcases hrekind with heq | ⟨hdata, hfree⟩
    · cases hkf : kind f with
      | dir e i =>
          rw [Shape.uses_dir (heq.trans hkf)]
          split
          · exact Or.inr (Or.inr ⟨Or.inr (Or.inl ⟨e, i, rfl⟩), Or.inl rfl⟩)
          · exact Or.inl rfl
      | table e sl =>
          rw [Shape.uses_table (heq.trans hkf)]
          split
          · refine Or.inr (Or.inr ⟨Or.inr (Or.inr ⟨e, sl, rfl⟩), ?_⟩)
            split
            · exact Or.inr rfl
            · exact Or.inl rfl
          · exact Or.inl rfl
      | _ =>
          left
          rw [Shape.uses, heq, hkf]
    · exact Or.inr (Or.inl ⟨hdata, by rw [Shape.uses, hfree]⟩)

/-- The end of an address space keeps the invariant. -/
theorem MmInv.teardown (h : MmInv kind s) (hd : d ∈ s.vm.pgdirs) (op : MmOp) :
    ∃ vm, TriOS.teardown s.vm d = done vm ∧
      TearsDown kind s.vm vm d ((s.vm.shape d).exitAll (s.vm.mmap d)) ∧
      ∃ kind', MmInv kind' { s with vm := vm } ∧ ∀ f, op.Moves f (kind f) (kind' f) := by
  obtain ⟨vm, hvm, htears⟩ := teardown_tearsDown h.frames hd (h.vmas d hd) (h.within d hd)
  obtain ⟨m, hmaps, hframes⟩ := htears.frames
  have hreleased := rootFreed_released ((s.vm.shape d).exitAll (s.vm.mmap d)) m ((h.frames.root d).1 hd)
  refine ⟨vm, hvm, htears, _, ⟨hframes, ?_, ?_, ?_⟩, fun f => ?_⟩
  · intro f
    change f ∈ s.held ↔ _
    rw [h.held]
    rcases hreleased f with heq | ⟨hdata, hfree⟩ | ⟨htable, hnew⟩
    · rw [heq]
    · simp [hdata, hfree]
    · refine iff_of_false (fun hc => ?_) fun hc => ?_
      · rw [hc] at htable
        simp [FrameKind.IsTable] at htable
      · rw [hc] at hnew
        simp at hnew
  · intro e he
    change e ∈ vm.pgdirs at he
    change ∀ v ∈ vm.mmap e, v.Ok
    rw [htears.pgdirs, Finset.mem_erase] at he
    rw [htears.mmap, Function.update_of_ne he.1]
    exact h.vmas e he.2
  · intro e he w hw hne
    change e ∈ vm.pgdirs at he
    change vm.page e w ≠ none at hne
    change InVmas (vm.mmap e) w
    rw [htears.pgdirs, Finset.mem_erase] at he
    rw [htears.mmap, Function.update_of_ne he.1]
    rw [htears.page_eq he.2 he.1 hw] at hne
    exact h.within e he.2 w hw hne
  · rcases hreleased f with heq | ⟨hdata, hfree⟩ | htable
    · exact Or.inl heq
    · exact Or.inr (Or.inl ⟨Or.inr hdata, Or.inl hfree⟩)
    · exact Or.inr (Or.inr (Or.inr (Or.inr (Or.inr htable))))

/-- One operation keeps the invariant, whatever its result. -/
theorem MmOp.exec_inv (h : MmInv kind s) (hc : op.Called s) :
    Safe (op.exec s) fun t => ∃ kind', MmInv kind' t ∧ ∀ f, op.Moves f (kind f) (kind' f) := by
  have hsame : ∃ kind', MmInv kind' s ∧ ∀ f, op.Moves f (kind f) (kind' f) := ⟨kind, h, fun _ => Or.inl rfl⟩
  cases op with
  | setupPgdir =>
      rw [MmOp.exec]
      rw [setupPgdir_eq]
      cases hpick : s.vm.pmm.pick s.vm.free with
      | none =>
          dsimp only
          split
          · trivial
          · exact hsame
      | some page =>
          have hpage := s.vm.pmm.pick_mem _ _ hpick
          refine ⟨_, h.setupPgdir hpage, fun f => ?_⟩
          by_cases hf : f = page
          · subst hf
            rw [Function.update_self]
            exact Or.inr (Or.inl ⟨Or.inl ((h.frames.free f).1 hpage), Or.inr (Or.inr (Or.inl rfl))⟩)
          · exact Or.inl (Function.update_of_ne hf _ _)
  | mmMap pgdir addr len flags kmallocOk =>
      rw [MmOp.exec]
      unfold TriOS.mmMap
      dsimp only
      split
      · exact hsame
      · next huser =>
          split
          · exact hsame
          · split
            · cases hins : insertVmaStruct (s.vm.mmap pgdir)
                  { start := roundDown addr pgSize, stop := roundUp (addr + len) pgSize, flags := flags } with
              | done vmas =>
                  have hmem := (insertVmaStruct_spec _ _).of_done hins
                  refine ⟨kind, h.setMmap hc (fun v hv => (hmem v).2 (Or.inr hv)) ?_, fun _ => Or.inl rfl⟩
                  intro v hv
                  rcases (hmem v).1 hv with rfl | hv
                  · exact ⟨roundDown_mod _, roundDown_mod _, not_not.1 huser⟩
                  · exact h.vmas pgdir hc v hv
              | panic => trivial
              | wrap => exact absurd hins (insertVmaStruct_spec _ _).ne_wrap
              | fuel => exact absurd hins (insertVmaStruct_spec _ _).ne_fuel
            · exact hsame
  | insertVma dest source vma =>
      obtain ⟨hd, he, hvma⟩ := hc
      rw [MmOp.exec]
      refine (insertVmaStruct_spec _ _).bind fun vmas hmem => ?_
      refine ⟨kind, h.setMmap hd (fun v hv => (hmem v).2 (Or.inr hv)) ?_, fun _ => Or.inl rfl⟩
      intro v hv
      rcases (hmem v).1 hv with rfl | hv
      · exact h.vmas source he v hvma
      · exact h.vmas dest hd v hv
  | allocPage =>
      rw [MmOp.exec]
      cases hpick : s.vm.pmm.pick s.vm.free with
      | none =>
          rw [allocPage_none hpick]
          dsimp only
          split
          · trivial
          · refine ⟨kind, ?_, fun _ => Or.inl rfl⟩
            change MmInv kind { vm := s.vm, held := s.held ∪ ∅ }
            rw [Finset.union_empty]
            exact h
      | some page =>
          have hpage := s.vm.pmm.pick_mem _ _ hpick
          have hwas := (h.frames.free page).1 hpage
          obtain ⟨hframes, hwalk⟩ := h.frames.alloc hpage
          rw [allocPage_some hpick]
          refine ⟨_, ⟨hframes, ?_, h.vmas, ?_⟩, fun f => ?_⟩
          · intro f
            change f ∈ s.held ∪ {page} ↔ _
            rw [Finset.mem_union, Finset.mem_singleton, h.held]
            by_cases hf : f = page
            · simp [hf]
            · simp [hf]
          · intro d hd w hw hne
            refine h.within d hd w hw fun hc => hne ?_
            rwa [Vm.page, hwalk.pte d hd w hw]
          · by_cases hf : f = page
            · subst hf
              rw [Function.update_self]
              exact Or.inr (Or.inr (Or.inr (Or.inl ⟨hwas, rfl, rfl⟩)))
            · exact Or.inl (Function.update_of_ne hf _ _)
  | freePage page =>
      have hwas := (h.held page).1 hc
      obtain ⟨vm, hvm, henv, hmem, hframes, hwalk⟩ := freePage_held h.frames hwas
      rw [MmOp.exec]
      rw [hvm]
      refine ⟨_, ⟨hframes, ?_, ?_, ?_⟩, fun f => ?_⟩
      · intro f
        change f ∈ s.held.erase page ↔ _
        rw [Finset.mem_erase, h.held]
        by_cases hf : f = page
        · simp [hf]
        · simp [hf]
      · intro d hd
        change d ∈ vm.pgdirs at hd
        change ∀ v ∈ vm.mmap d, v.Ok
        rw [henv.pgdirs] at hd
        rw [henv.mmap]
        exact h.vmas d hd
      · intro d hd w hw hne
        change d ∈ vm.pgdirs at hd
        change InVmas (vm.mmap d) w
        rw [henv.pgdirs] at hd
        rw [henv.mmap]
        refine h.within d hd w hw fun hc => hne ?_
        change vm.page d w = none
        rwa [Vm.page, hwalk.pte d hd w hw]
      · by_cases hf : f = page
        · subst hf
          rw [Function.update_self]
          exact Or.inr (Or.inr (Or.inr (Or.inr (Or.inl ⟨hwas, rfl, rfl⟩))))
        · exact Or.inl (Function.update_of_ne hf _ _)
  | pageInsert pgdir page la perm =>
      obtain ⟨hd, hin, hpage⟩ := hc
      have hpage' : kind page = FrameKind.data ∨ kind page = FrameKind.held := by
        rw [h.frames.data_iff, ← h.held]
        exact hpage.symm
      rw [MmOp.exec]
      refine (pageInsert_reuses h.frames hd (hin.lt (h.vmas pgdir hd)) hpage' hin).bind fun r hr => ?_
      obtain ⟨ret, vm⟩ := r
      obtain ⟨kind', hreuses, hret⟩ := hr
      dsimp only at hreuses hret ⊢
      refine ⟨kind', h.reuses hd hreuses ?_ ?_, fun f => ?_⟩
      · intro f hf
        cases hf
        rcases hret with ⟨rfl, hk⟩ | ⟨rfl, hk⟩
        · rw [if_neg eNoMem_ne_zero, h.held, hk]
        · simp [hk]
      · intro f hf
        have hne : f ≠ page := fun hc => hf (hc ▸ rfl)
        split
        · rw [Finset.mem_erase]
          exact ⟨fun hc => hc.2, fun hc => ⟨hne, hc⟩⟩
        · rfl
      · by_cases hf : f = page
        · subst hf
          rcases hret with ⟨-, hk⟩ | ⟨-, hk⟩
          · exact Or.inl hk
          · rcases hpage' with hwas | hwas
            · exact Or.inl (hk.trans hwas.symm)
            · exact Or.inr (Or.inr (Or.inl ⟨hwas, hk⟩))
        · exact (hreuses.uses f fun hc => hf (Option.some.inj hc).symm).moves _ f
  | pageRemove pgdir la =>
      obtain ⟨vm, hvm, hunmaps⟩ := pageRemove_unmaps h.frames hc.1 hc.2
      rw [MmOp.exec]
      rw [hvm]
      exact h.reuses_none hc.1 _ hunmaps.reuses
  | unmapRange pgdir start stop =>
      rw [MmOp.exec]
      by_cases halign : start % pgSize = 0 ∧ stop % pgSize = 0
      · by_cases huser : UserAccess start stop
        · obtain ⟨vm, hvm, hunmaps⟩ := unmapRange_unmaps h.frames hc halign.1 halign.2 huser
          rw [hvm]
          exact h.reuses_none hc _ hunmaps.reuses
        · unfold TriOS.unmapRange
          rw [assert_of halign, bind_done, assert_of_not huser]
          trivial
      · unfold TriOS.unmapRange
        rw [assert_of_not halign]
        trivial
  | pgdirAllocPage pgdir la perm =>
      obtain ⟨hd, hin⟩ := hc
      rw [MmOp.exec]
      refine (pgdirAllocPage_reuses h.frames hd (hin.lt (h.vmas pgdir hd)) hin).bind fun r hr => ?_
      obtain ⟨kind', hreuses⟩ := hr
      exact h.reuses_none hd _ hreuses
  | copyRange dest source start stop =>
      obtain ⟨hd, he, hin⟩ := hc
      rw [MmOp.exec]
      refine (copyRange_reuses h.frames hd he hin).bind fun r hr => ?_
      obtain ⟨kind', hreuses⟩ := hr
      exact h.reuses_none hd _ hreuses
  | doPgfault pgdir addr =>
      rw [MmOp.exec]
      have hfault := doPgfault_reuses (Q := InVmas (s.vm.mmap pgdir)) addr h.frames hc
        fun vma hfind => by
          have hin := findVma_inVmas hfind (h.vmas pgdir hc)
          exact ⟨hin.lt (h.vmas pgdir hc), hin⟩
      refine hfault.bind fun r hr => ?_
      obtain ⟨kind', hreuses⟩ := hr
      exact h.reuses_none hc _ hreuses
  | exit pgdir =>
      obtain ⟨vm, hvm, -, kind', hinv, hmoves⟩ := h.teardown hc (MmOp.exit pgdir)
      rw [MmOp.exec]
      rw [hvm]
      exact ⟨kind', hinv, hmoves⟩

/-! ## Runs -/

theorem MmInv.run (h0 : s.Boot) (hrun : Run MmStep s ops t) : ∃ kind, MmInv kind t := by
  refine hrun.invariant (fun t => ∃ kind, MmInv kind t) ?_ h0.inv
  rintro t op u ⟨kind, hinv⟩ ⟨hcalled, hstep⟩
  obtain ⟨kind', hinv', -⟩ := (MmOp.exec_inv hinv hcalled).of_done hstep
  exact ⟨kind', hinv'⟩

/-- A page directory, a level-0 directory or a page table of an address space. -/
def Vm.IsTable (s : Vm) (f : Nat) : Prop :=
  f ∈ s.pgdirs ∨ ∃ d ∈ s.pgdirs, (∃ i < userDirs, s.next d i = some f) ∨
    ∃ sl < userTables, s.pt d sl = some f

theorem Frames.isTable_iff {vm : Vm} (h : Frames kind vm) : vm.IsTable f ↔ (kind f).IsTable := by
  refine or_congr (h.root f) ⟨?_, ?_⟩
  · rintro ⟨d, hd, ⟨i, hi, hf⟩ | ⟨sl, hsl, hf⟩⟩
    · exact Or.inl ⟨d, i, (h.dir f d i).2 ⟨hd, hi, hf⟩⟩
    · exact Or.inr ⟨d, sl, (h.table f d sl).2 ⟨hd, hsl, hf⟩⟩
  · rintro (⟨d, i, hf⟩ | ⟨d, sl, hf⟩)
    · obtain ⟨hd, hi, hnext⟩ := (h.dir f d i).1 hf
      exact ⟨d, hd, Or.inl ⟨i, hi, hnext⟩⟩
    · obtain ⟨hd, hsl, hpt⟩ := (h.table f d sl).1 hf
      exact ⟨d, hd, Or.inr ⟨sl, hsl, hpt⟩⟩

/-- `ref` is the number of entries that map a page, over all page tables, and what is free or in the hands
of a caller is not mapped. -/
structure MmState.RefCounts (s : MmState) : Prop where
  mapped : ∀ f, (s.vm.maps f).Nonempty → s.vm.ref f = (s.vm.maps f).card
  held : ∀ f ∈ s.held, f ∉ s.vm.free ∧ s.vm.ref f = 0 ∧ s.vm.maps f = ∅
  free : ∀ f ∈ s.vm.free, s.vm.ref f = 0 ∧ s.vm.maps f = ∅

/-- Where the pages go in one operation. -/
structure MmState.Accounts (s : MmState) (op : MmOp) (t : MmState) : Prop where
  /-- A page that has lost its last entry is in the allocator, or a table has been made of it since. -/
  dropped : ∀ f, (s.vm.maps f).Nonempty → t.vm.maps f = ∅ → f ∈ t.vm.free ∨ t.vm.IsTable f
  /-- What comes back was a page that has lost its last entry, a table, or given back by its holder. -/
  returned : ∀ f ∈ t.vm.free, f ∉ s.vm.free → (s.vm.maps f).Nonempty ∧ t.vm.maps f = ∅ ∨
    s.vm.IsTable f ∨ f ∈ s.held ∧ op = MmOp.freePage f
  /-- A page that is taken is mapped, or comes back in the same operation. -/
  taken : ∀ f ∈ s.vm.free, f ∈ t.vm.free ∨ (t.vm.maps f).Nonempty ∨ t.vm.IsTable f ∨
    f ∈ t.held ∧ op = MmOp.allocPage
  /-- A page in the hands of a caller stays there until it is mapped or given back. -/
  kept : ∀ f ∈ s.held, f ∈ t.held ∨ (t.vm.maps f).Nonempty ∨ op = MmOp.freePage f

theorem Frames.maps_empty {vm : Vm} (h : Frames kind vm) (hf : kind f ≠ FrameKind.data) : vm.maps f = ∅ :=
  Finset.not_nonempty_iff_eq_empty.1 fun hc => hf (h.data_iff.2 hc)

theorem MmInv.refCounts (h : MmInv kind s) : s.RefCounts := by
  refine ⟨fun f hf => (h.frames.ref f (h.frames.data_iff.2 hf)).1, ?_, ?_⟩
  · intro f hf
    have hk := (h.held f).1 hf
    rw [h.frames.free, hk]
    exact ⟨by simp, h.frames.unref f (Or.inr hk), h.frames.maps_empty (by simp [hk])⟩
  · intro f hf
    have hk := (h.frames.free f).1 hf
    exact ⟨h.frames.unref f (Or.inl hk), h.frames.maps_empty (by simp [hk])⟩

theorem MmInv.accounts (h : MmInv kind s) (h' : MmInv kind' t)
    (hmoves : ∀ f, op.Moves f (kind f) (kind' f)) : s.Accounts op t := by
  refine ⟨?_, ?_, ?_, ?_⟩
  · intro f hf hempty
    have hk := h.frames.data_iff.2 hf
    have hk' : kind' f ≠ FrameKind.data := fun hc =>
      Finset.nonempty_iff_ne_empty.1 (h'.frames.data_iff.1 hc) hempty
    have hm := hmoves f
    rw [hk] at hm
    rw [h'.frames.free, h'.frames.isTable_iff]
    rcases hm with hc | ⟨-, hc⟩ | ⟨hc, -⟩ | ⟨hc, -, -⟩ | ⟨hc, -, -⟩ | ⟨hc, -⟩
    · exact absurd hc hk'
    · exact hc.imp id fun hc => hc.resolve_left hk'
    · cases hc
    · cases hc
    · cases hc
    · simp [FrameKind.IsTable] at hc
  · intro f hf hnot
    have hk' := (h'.frames.free f).1 hf
    rw [h.frames.free] at hnot
    have hm := hmoves f
    rw [hk'] at hm
    rw [← h.frames.data_iff, h.frames.isTable_iff, h.held]
    rcases hm with hc | ⟨hc, -⟩ | ⟨-, hc⟩ | ⟨-, hc, -⟩ | ⟨hc, -, hop⟩ | ⟨hc, -⟩
    · exact absurd hc.symm hnot
    · exact Or.inl ⟨hc.resolve_left hnot, h'.frames.maps_empty (by simp [hk'])⟩
    · cases hc
    · cases hc
    · exact Or.inr (Or.inr ⟨hc, hop⟩)
    · exact Or.inr (Or.inl hc)
  · intro f hf
    have hk := (h.frames.free f).1 hf
    have hm := hmoves f
    rw [hk] at hm
    rw [h'.frames.free, ← h'.frames.data_iff, h'.frames.isTable_iff, h'.held]
    rcases hm with hc | ⟨-, hc | hc | hc⟩ | ⟨hc, -⟩ | ⟨-, hc, hop⟩ | ⟨hc, -, -⟩ | ⟨hc, -⟩
    · exact Or.inl hc
    · exact Or.inl hc
    · exact Or.inr (Or.inl hc)
    · exact Or.inr (Or.inr (Or.inl hc))
    · cases hc
    · exact Or.inr (Or.inr (Or.inr ⟨hc, hop⟩))
    · cases hc
    · simp [FrameKind.IsTable] at hc
  · intro f hf
    have hk := (h.held f).1 hf
    have hm := hmoves f
    rw [hk] at hm
    rw [h'.held, ← h'.frames.data_iff]
    rcases hm with hc | ⟨hc, -⟩ | ⟨-, hc⟩ | ⟨hc, -, -⟩ | ⟨-, -, hop⟩ | ⟨hc, -⟩
    · exact Or.inl hc
    · simp at hc
    · exact Or.inr (Or.inl hc)
    · cases hc
    · exact Or.inr (Or.inr hop)
    · simp [FrameKind.IsTable] at hc

/-- A page that is inserted once more where it is mapped already. -/
theorem MmInv.reinsert {perm : Perm} (h : MmInv kind s) (hd : d ∈ s.vm.pgdirs) (hla : la < userTop)
    (hpage : s.vm.page d (la / pgSize) = some page) :
    ∃ vm, pageInsert s.vm d page la perm = done (0, vm) ∧ vm.ref page = s.vm.ref page ∧
      vm.maps page = s.vm.maps page := by
  have hv := div_lt_pages hla
  have hdata := h.frames.data d _ page hd hv hpage
  have hpt : ∃ p, s.vm.pt d (la / ptSize) = some p := by
    rw [← div_ptSize]
    cases hpt : s.vm.pt d (la / pgSize / nPteEntry) with
    | none =>
        rw [Vm.page, Vm.pte_of_none hpt, Pte.frame_zero] at hpage
        cases hpage
    | some p => exact ⟨p, rfl⟩
  obtain ⟨p, hpt⟩ := hpt
  obtain ⟨vm, hvm, hins⟩ := pageInsert_of_pt perm h.frames hd hla hpt (Or.inl hdata)
  have hx : Pte.frame (pteCreate page (pteV ||| perm.bits)) = some page :=
    frame_insert perm (h.frames.lt_npage (by simp [hdata]))
  have hmaps : vm.maps page = s.vm.maps page := by
    rw [hins.sets.maps hins.env.pgdirs hd hv, if_pos hx, Finset.insert_eq_of_mem]
    exact mem_maps.2 ⟨hd, hv, hpage⟩
  refine ⟨vm, hvm, ?_, hmaps⟩
  calc
    vm.ref page = (vm.maps page).card := (hins.frames.ref page rekind_self).1
    _ = (s.vm.maps page).card := by rw [hmaps]
    _ = s.vm.ref page := (h.frames.ref page hdata).1.symm

/-- In every reachable state `ref` counts the entries that map a page, and no operation frees a page that
is free, loses a page or gives one back too early; inserting a page again where it is changes nothing. -/
theorem page_reference_counting (h0 : s.Boot) (hrun : Run MmStep s ops t) :
    t.RefCounts ∧
    (∀ op : MmOp, op.Called t → Safe (op.exec t) fun u => u.RefCounts ∧ t.Accounts op u) ∧
    ∀ (d page la : Nat) (perm : Perm), d ∈ t.vm.pgdirs → la < userTop →
      t.vm.page d (la / pgSize) = some page →
      ∃ vm, pageInsert t.vm d page la perm = done (0, vm) ∧ vm.ref page = t.vm.ref page ∧
        vm.maps page = t.vm.maps page := by
  obtain ⟨kind, hinv⟩ := MmInv.run h0 hrun
  refine ⟨hinv.refCounts, fun op hc => ?_, fun d page la perm hd hla hpage => hinv.reinsert hd hla hpage⟩
  refine (MmOp.exec_inv hinv hc).mono fun u hu => ?_
  obtain ⟨kind', hinv', hmoves⟩ := hu
  exact ⟨hinv'.refCounts, hinv.accounts hinv' hmoves⟩

/-! ## A memory of four frames -/

/-- The lowest free frame is handed out. -/
def lowestPick (pool : Finset Nat) (h : ∀ f ∈ pool, f < npage) : PageAllocator where
  pool := pool
  pick := fun free => (List.range 8).find? fun f => f ∈ free
  pool_lt := h
  pick_mem := fun free f hf => by simpa using List.find?_some hf

/-- A machine with four free frames. -/
def fourFrames : MmState where
  vm := {
    pmm := lowestPick {1, 2, 3, 4} (by decide)
    swapInitOk := true
    maxSwapOffset := 0
    free := {1, 2, 3, 4}
    ref := fun _ => 0
    mem := fun _ _ => 0
    swap := fun _ _ => 0
    bootPgdir := 0
    pgdirs := ∅
    mmap := fun _ => [] }
  held := ∅

theorem fourFrames_boot : fourFrames.Boot :=
  ⟨by decide, fun _ _ => rfl, rfl, rfl, by decide, fun _ _ => not_valid_zero⟩

/-- An address space of two pages in one slot, of which the first is touched. -/
theorem fourFrames_run : ∃ t, Run MmStep fourFrames
    [MmOp.setupPgdir, MmOp.mmMap 1 0x200000 0x2000 vmWrite true, MmOp.doPgfault 1 0x200000] t ∧
      1 ∈ t.vm.pgdirs ∧ t.vm.page 1 0x200 = some 4 ∧ t.vm.free = ∅ :=
  ⟨_, Run.cons ⟨trivial, rfl⟩ (Run.cons ⟨Finset.mem_insert_self _ _, rfl⟩
    (Run.cons ⟨Finset.mem_insert_self _ _, rfl⟩ Run.nil)), Finset.mem_insert_self _ _, by decide, by decide⟩

theorem page_reference_counting_fourFrames : ∃ t, Run MmStep fourFrames
    [MmOp.setupPgdir, MmOp.mmMap 1 0x200000 0x2000 vmWrite true, MmOp.doPgfault 1 0x200000] t ∧
      t.RefCounts := by
  obtain ⟨t, hrun, -⟩ := fourFrames_run
  exact ⟨t, hrun, (page_reference_counting fourFrames_boot hrun).1⟩

end TriOS
