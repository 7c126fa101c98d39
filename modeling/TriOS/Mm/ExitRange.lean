import TriOS.Mm.PagingExit

/-!
# ExitRange — exit_range, and the end of an address space

`exit_range` refines `Shape.exitRange`, and the end of an address space gives back what its shape does not
keep.
-/

namespace TriOS

open Outcome

variable {kind kind' : Nat → FrameKind} {s t u s₀ : Vm} {d e f g p q i v w sl a start stop : Nat}
  {σ : Shape} {R : Finset Nat}

/-! ## exit_range -/

/-- The level-0 directory of a gigabyte stays in place while only tables are freed. -/
theorem Exits.next_eq (h : Exits kind s₀ d σ s) (hin : i ∈ σ.dirs) (hk : kind q = FrameKind.dir d i) :
    s.next d i = some q :=
  ((h.frames.dir q d i).1 (Shape.uses_eq_dir.2 ⟨hk, hin⟩)).2.2

theorem exitInner_exits (hd : d ∈ s₀.pgdirs) (hk : kind q = FrameKind.dir d i) (hi : i < userDirs)
    (bound : Nat) : ∀ {σ : Shape} {s : Vm} {a : Nat} (freePd0 : Bool), Exits kind s₀ d σ s →
    i ∈ σ.dirs → a / nPteEntry = i → a * ptSize < stop → (i + 1) * nPteEntry ≤ a + bound →
    ∃ t, exitInner bound s q (a * ptSize) (i * pdSize) stop freePd0 =
        done (freePd0 && decide (rangeSlots (a * ptSize) stop i ⊆ σ.tables), t) ∧
      Exits kind s₀ d (σ.freeTables (rangeSlots (a * ptSize) stop i)) t := by
  induction bound with
  | zero =>
      intro σ s a _ _ _ ha _ hbound
      exfalso
      unfold nPteEntry at *
      omega
  | succ bound ih =>
      intro σ s a freePd0 h hin ha hlt hbound
      have hsl : a < userTables := by
        unfold userDirs at hi
        unfold nPteEntry at ha
        unfold userTables
        omega
      have hd' : d ∈ s.pgdirs := h.env.pgdirs.symm ▸ hd
      have hnext := h.next_eq hin hk
      have hindex : pdx0 (a * ptSize) = a % nPteEntry := by
        rw [pdx0_eq, Nat.mul_div_cancel _ (by decide)]
      have hsplit := rangeSlots_succ ha hlt
      have hnot : a ∉ rangeSlots ((a + 1) * ptSize) stop i := by
        rw [mem_rangeSlots, Nat.mul_div_cancel _ (by decide)]
        omega
      -- the entry of the slot is valid exactly when it has a table
      have hvalid : (s.mem q (a % nPteEntry)).Valid ↔ a ∈ σ.tables := by
        rw [h.tables a hsl, Vm.pt, ha, hnext]
        change _ ↔ Pte.frame _ ≠ none
        rw [Ne, Pte.frame_eq_none, not_not]
      -- one slot
      have hslot : ∃ t, (∀ k : Vm → Outcome (Bool × Vm),
          (if decide (s.mem q (a % nPteEntry)).Valid = true then freeTable s q (a % nPteEntry) >>= k
            else pure s >>= k) = k t) ∧ Exits kind s₀ d (σ.freeTables {a}) t := by
        by_cases hmem : a ∈ σ.tables
        · obtain ⟨t, ht, hexits⟩ := h.freeTable hd hsl hmem (ha.symm ▸ hnext)
          exact ⟨t, fun k => by rw [if_pos (by simpa using hvalid.2 hmem), ht, bind_done], hexits⟩
        · refine ⟨s, fun k => if_neg (by simpa using fun hc => hmem (hvalid.1 hc)), ?_⟩
          have hsame : σ.freeTables {a} = σ := by
            rw [Shape.freeTables, Finset.sdiff_singleton_eq_erase, Finset.erase_eq_of_notMem hmem]
          exact hsame.symm ▸ h
      obtain ⟨t, ht, hexits⟩ := hslot
      have hflag : (decide (s.mem q (a % nPteEntry)).Valid &&
          decide (rangeSlots ((a + 1) * ptSize) stop i ⊆ (σ.freeTables {a}).tables)) =
          decide (rangeSlots (a * ptSize) stop i ⊆ σ.tables) := by
        rw [Bool.eq_iff_iff, Bool.and_eq_true, decide_eq_true_iff, decide_eq_true_iff, decide_eq_true_iff,
          hvalid, hsplit, Finset.insert_subset_iff]
        refine and_congr_right fun _ => ?_
        simp only [Shape.freeTables]
        rw [Finset.subset_sdiff, Finset.disjoint_singleton_right]
        exact ⟨fun hc => hc.1, fun hc => ⟨hc, hnot⟩⟩
      have hshape : (σ.freeTables {a}).freeTables (rangeSlots ((a + 1) * ptSize) stop i) =
          σ.freeTables (rangeSlots (a * ptSize) stop i) := by
        rw [Shape.freeTables_freeTables, hsplit, Finset.insert_eq]
      have haddr : a * ptSize + ptSize = (a + 1) * ptSize := by rw [Nat.succ_mul]
      unfold exitInner
      rw [hindex]
      dsimp only
      rw [ht, haddr]
      by_cases hmore : (a + 1) * ptSize < (i + 1) * pdSize ∧ (a + 1) * ptSize < stop
      · rw [if_pos ⟨by simp [ptSize], by rw [← Nat.succ_mul i pdSize]; exact hmore.1, hmore.2⟩]
        have hsame : (a + 1) / nPteEntry = i := by
          have hlow := hmore.1
          unfold ptSize pdSize at hlow
          unfold nPteEntry at *
          omega
        obtain ⟨u, hu, hrest⟩ := ih (freePd0 && decide (s.mem q (a % nPteEntry)).Valid) hexits
          hin hsame hmore.2 (by omega)
        refine ⟨u, ?_, hshape ▸ hrest⟩
        rw [hu, Bool.and_assoc, hflag]
      · have hempty : rangeSlots ((a + 1) * ptSize) stop i = ∅ :=
          rangeSlots_end hmore (Nat.mul_mod_left _ _)
        rw [if_neg]
        · refine ⟨t, ?_, ?_⟩
          · rw [← hflag, hempty]
            simp
          · rw [← hshape, hempty]
            simpa [Shape.freeTables] using hexits
        · rintro ⟨-, h1, h2⟩
          rw [← Nat.succ_mul i pdSize] at h1
          exact hmore ⟨h1, h2⟩

theorem exitStep_exits (h : Exits kind s₀ d σ s) (hd : d ∈ s₀.pgdirs) (hi : i < userDirs)
    (ha : a / nPteEntry = i) (hlt : a * ptSize < stop) :
    ∃ t, exitStep s d (a * ptSize) (i * pdSize) stop = done t ∧
      Exits kind s₀ d (σ.exitStep i (rangeSlots (a * ptSize) stop i)) t := by
  have hd' : d ∈ s.pgdirs := h.env.pgdirs.symm ▸ hd
  have hindex : pdx1 (i * pdSize) = i := by
    unfold userDirs at hi
    unfold pdx1 pdSize nPteEntry
    omega
  unfold exitStep
  rw [hindex]
  unfold Shape.exitStep
  by_cases hin : i ∈ σ.dirs
  · obtain ⟨q, hq⟩ := Option.ne_none_iff_exists'.1 ((h.dirs i hi).1 hin)
    have hkq := (Shape.uses_eq_dir.1 ((h.frames.dir q d i).2 ⟨hd', hi, hq⟩)).1
    obtain ⟨t, ht, hexits⟩ := exitInner_exits hd hkq hi nPteEntry true h hin ha hlt
      (by rw [Nat.succ_mul, ← ha]; unfold nPteEntry; omega)
    have hqt := hexits.next_eq hin hkq
    rw [if_pos hin, if_pos (Pte.frame_eq_some.1 hq).1, pde2page_eq hq (h.frames.dir_lt hd' hi hq),
      bind_done, ht, bind_done]
    dsimp only
    by_cases hsub : rangeSlots (a * ptSize) stop i ⊆ σ.tables
    · obtain ⟨u, hu, hfreed⟩ := hexits.freeDir hd hi hin hqt
      rw [if_pos hsub, if_pos (by simpa using hsub),
        pde2page_eq hqt (hexits.frames.dir_lt (hexits.env.pgdirs.symm ▸ hd) hi hqt), bind_done, hu]
      exact ⟨_, rfl, hfreed⟩
    · rw [if_neg hsub, if_neg (by simpa using hsub)]
      exact ⟨t, rfl, hexits⟩
  · have hnone : s.next d i = none := by
      by_contra hc
      exact hin ((h.dirs i hi).2 hc)
    rw [if_neg hin, if_neg (Pte.frame_eq_none.1 hnone)]
    exact ⟨s, rfl, h⟩

theorem exitLoop_exits (hd : d ∈ s₀.pgdirs) (htop : stop ≤ userTop) (bound : Nat) :
    ∀ {σ : Shape} {s : Vm} {a i : Nat}, Exits kind s₀ d σ s → a / nPteEntry = i → a * ptSize < stop →
    start / ptSize ≤ a → (∀ sl, start / ptSize ≤ sl → sl / nPteEntry = i → a ≤ sl) →
    userDirs ≤ i + bound → ∃ t, exitLoop bound s d (a * ptSize) (i * pdSize) stop = done t ∧
      Exits kind s₀ d (σ.exitRounds start stop i (userDirs - i)) t := by
  induction bound with
  | zero =>
      intro σ s a i _ ha hlt _ _ hbound
      exfalso
      unfold userDirs at hbound
      unfold nPteEntry at ha
      unfold ptSize userTop at *
      omega
  | succ bound ih =>
      intro σ s a i h ha hlt hlow hfirst hbound
      have hi : i < userDirs := by
        unfold userDirs
        unfold nPteEntry at ha
        unfold ptSize userTop at *
        omega
      have hslots : rangeSlots start stop i = rangeSlots (a * ptSize) stop i := by
        ext sl
        rw [mem_rangeSlots, mem_rangeSlots, Nat.mul_div_cancel _ (by decide)]
        refine ⟨fun hc => ⟨hfirst sl hc.1 hc.2.2, hc.2⟩, fun hc => ⟨hlow.trans hc.1, hc.2⟩⟩
      have hne : (rangeSlots start stop i).Nonempty :=
        ⟨a, hslots ▸ mem_rangeSlots.2 ⟨by rw [Nat.mul_div_cancel _ (by decide)], hlt, ha⟩⟩
      obtain ⟨t, ht, hexits⟩ := exitStep_exits h hd hi ha hlt
      rw [← hslots] at hexits
      have hrounds : σ.exitRounds start stop i (userDirs - i) =
          (σ.exitStep i (rangeSlots start stop i)).exitRounds start stop (i + 1) (userDirs - (i + 1)) := by
        unfold Shape.exitRounds
        rw [show userDirs - i = userDirs - (i + 1) + 1 by omega, List.range'_succ, List.foldl_cons,
          if_pos hne]
      have hnext : i * pdSize + pdSize = (i + 1) * nPteEntry * ptSize := by
        unfold pdSize nPteEntry ptSize
        omega
      unfold exitLoop
      rw [ht, bind_done, hrounds]
      dsimp only
      by_cases hmore : i * pdSize + pdSize < stop
      · rw [if_pos ⟨by simp [pdSize], hmore⟩]
        have hloop := ih (a := (i + 1) * nPteEntry) (i := i + 1) hexits
          (Nat.mul_div_cancel _ (by decide)) (hnext ▸ hmore)
          (hlow.trans (by unfold nPteEntry at *; omega))
          (fun sl _ hsl => by unfold nPteEntry at *; omega) (by omega)
        rwa [← hnext, ← Nat.succ_mul i pdSize] at *
      · rw [if_neg fun hc => hmore hc.2, Shape.exitRounds_empty]
        · exact ⟨t, rfl, hexits⟩
        · intro j hj _
          refine Finset.eq_empty_of_forall_notMem fun sl hsl => ?_
          rw [mem_rangeSlots] at hsl
          unfold nPteEntry ptSize at *
          omega

theorem exitRange_exits (h : Exits kind s₀ d σ s) (hd : d ∈ s₀.pgdirs) (hstart : start % pgSize = 0)
    (hstop : stop % pgSize = 0) (huser : UserAccess start stop) :
    ∃ t, exitRange s d start stop = done t ∧ Exits kind s₀ d (σ.exitRange start stop) t := by
  have hlt := huser.2.1
  have htop := huser.2.2
  have hdir : start / pdSize ≤ userDirs := by
    unfold pdSize userDirs
    unfold userTop at htop
    omega
  have hgig : start / ptSize / nPteEntry = start / pdSize := by
    unfold ptSize nPteEntry pdSize
    omega
  unfold exitRange
  rw [assert_of ⟨hstart, hstop⟩, bind_done, assert_of huser, bind_done, roundDown_eq, roundDown_eq,
    Shape.exitRange_eq hdir]
  refine exitLoop_exits hd htop nPteEntry h hgig ((Nat.div_mul_le_self _ _).trans_lt hlt) le_rfl
    (fun sl hsl _ => hsl) ((by decide : userDirs ≤ nPteEntry).trans (Nat.le_add_left _ _))

/-! ## The end of an address space -/

/-- The use of the frames when the page directory of `d` is gone as well. -/
def rootFreed (kind : Nat → FrameKind) (d f : Nat) : FrameKind :=
  if f = d then FrameKind.free
  else
    match kind f with
    | FrameKind.dir e i => if e = d then FrameKind.other else FrameKind.dir e i
    | FrameKind.table e sl => if e = d then FrameKind.other else FrameKind.table e sl
    | k => k

/-- The areas of an address space are areas of user memory. -/
def Vma.Ok (vma : Vma) : Prop :=
  vma.start % pgSize = 0 ∧ vma.stop % pgSize = 0 ∧ UserAccess vma.start vma.stop

/-- The page belongs to an area of the list. -/
def InVmas (vmas : List Vma) (w : Nat) : Prop :=
  ∃ vma ∈ vmas, Between vma.start vma.stop w

theorem unmapAll_unmaps : ∀ {vmas : List Vma} {kind : Nat → FrameKind} {s : Vm}, Frames kind s →
    d ∈ s.pgdirs → (∀ vma ∈ vmas, vma.Ok) →
    ∃ t, vmas.foldlM (fun s vma => unmapRange s d vma.start vma.stop) s = done t ∧
      Unmaps kind s t d (InVmas vmas)
  | [], kind, s, h, _, _ => ⟨s, rfl, Unmaps.refl h d _ fun w _ hw => by simp [InVmas] at hw⟩
  | vma :: vmas, kind, s, h, hd, hok => by
      obtain ⟨hstart, hstop, huser⟩ := hok vma List.mem_cons_self
      obtain ⟨t, ht, hunmaps⟩ := unmapRange_unmaps h hd hstart hstop huser
      obtain ⟨u, hu, hrest⟩ := unmapAll_unmaps hunmaps.frames (hunmaps.env.pgdirs.symm ▸ hd)
        fun vma' hin => hok vma' (List.mem_cons_of_mem _ hin)
      refine ⟨u, ?_, (hunmaps.trans hrest).mono fun w _ => by simp [InVmas]⟩
      rw [List.foldlM_cons, ht]
      exact hu

theorem exitAll_exits (hd : d ∈ s₀.pgdirs) : ∀ {vmas : List Vma} {σ : Shape} {s : Vm},
    Exits kind s₀ d σ s → (∀ vma ∈ vmas, vma.Ok) →
    ∃ t, vmas.foldlM (fun s vma => exitRange s d vma.start vma.stop) s = done t ∧
      Exits kind s₀ d (σ.exitAll vmas) t
  | [], σ, s, h, _ => ⟨s, rfl, h⟩
  | vma :: vmas, σ, s, h, hok => by
      obtain ⟨hstart, hstop, huser⟩ := hok vma List.mem_cons_self
      obtain ⟨t, ht, hexits⟩ := exitRange_exits h hd hstart hstop huser
      obtain ⟨u, hu, hrest⟩ := exitAll_exits hd hexits fun vma' hin => hok vma' (List.mem_cons_of_mem _ hin)
      refine ⟨u, ?_, hrest⟩
      rw [List.foldlM_cons, ht]
      exact hu

theorem rootFreed_cases (kind : Nat → FrameKind) (d f : Nat) :
    f = d ∧ rootFreed kind d f = FrameKind.free ∨
    f ≠ d ∧ ((∃ i, kind f = FrameKind.dir d i) ∨ ∃ sl, kind f = FrameKind.table d sl) ∧
      rootFreed kind d f = FrameKind.other ∨
    f ≠ d ∧ (∀ i, kind f ≠ FrameKind.dir d i) ∧ (∀ sl, kind f ≠ FrameKind.table d sl) ∧
      rootFreed kind d f = kind f := by
  unfold rootFreed
  by_cases hf : f = d
  · exact Or.inl ⟨hf, if_pos hf⟩
  · right
    rw [if_neg hf]
    cases hk : kind f with
    | dir e i => by_cases he : e = d <;> simp [hf, he]
    | table e sl => by_cases he : e = d <;> simp [hf, he]
    | _ => simp [hf]

/-- The page directory is freed with the structures of its address space. -/
theorem Frames.freeRoot (h : Frames kind s) (hd : d ∈ s.pgdirs)
    (hempty : ∀ w < userPages, s.page d w = none) :
    ∃ t, putPgdir s d = done t ∧ Frames (rootFreed kind d) (mmDestroy t d) ∧
      mmDestroy t d = { s with
        ref := Function.update s.ref d 0
        free := insert d s.free
        pgdirs := s.pgdirs.erase d
        mmap := Function.update s.mmap d [] } := by
  have hroot := (h.root d).1 hd
  have hnotFree : d ∉ s.free := by
    rw [h.free, hroot]
    simp
  refine ⟨_, freePage_eq (h.pool d (by simp [hroot])) hnotFree, ?_, rfl⟩
  refine h.retire rfl rfl rfl ?_ ?_ ?_ ?_ ?_ ?_ ?_
  · intro f
    rcases rootFreed_cases kind d f with ⟨rfl, hk⟩ | ⟨-, hwas, hk⟩ | ⟨-, -, -, hk⟩
    · right
      rw [hroot]
      exact ⟨by simp [FrameKind.IsPage], by simp, Or.inl ⟨hk, Function.update_self _ _ _⟩⟩
    · right
      rcases hwas with ⟨i, hwas⟩ | ⟨sl, hwas⟩ <;> rw [hwas] <;>
        exact ⟨by simp [FrameKind.IsPage], by simp, Or.inr hk⟩
    · exact Or.inl hk
  · intro f
    change f ∈ insert d s.free ↔ _
    rw [Finset.mem_insert, h.free]
    rcases rootFreed_cases kind d f with ⟨rfl, hk⟩ | ⟨hne, hwas, hk⟩ | ⟨hne, -, -, hk⟩
    · simp [hk]
    · rcases hwas with ⟨i, hwas⟩ | ⟨sl, hwas⟩ <;> simp [hk, hwas, hne]
    · simp [hk, hne]
  · intro f hf
    refine Function.update_of_ne ?_ _ _
    rintro rfl
    rw [hroot] at hf
    simp [FrameKind.IsPage] at hf
  · intro f
    ext ⟨e, w⟩
    rw [mem_maps, mem_maps]
    change e ∈ s.pgdirs.erase d ∧ w < userPages ∧ s.page e w = some f ↔ _
    rw [Finset.mem_erase]
    refine ⟨fun hc => ⟨hc.1.2, hc.2⟩, fun hc => ⟨⟨?_, hc.1⟩, hc.2⟩⟩
    rintro rfl
    rw [hempty w hc.2.1] at hc
    exact absurd hc.2.2 (by simp)
  · intro e
    change e ∈ s.pgdirs.erase d ↔ _
    rw [Finset.mem_erase, h.root]
    rcases rootFreed_cases kind d e with ⟨rfl, hk⟩ | ⟨hne, hwas, hk⟩ | ⟨hne, -, -, hk⟩
    · simp [hk]
    · rcases hwas with ⟨i, hwas⟩ | ⟨sl, hwas⟩ <;> simp [hk, hwas]
    · simp [hk, hne]
  · intro g e i
    change _ ↔ e ∈ s.pgdirs.erase d ∧ i < userDirs ∧ s.next e i = some g
    rw [Finset.mem_erase, and_assoc, ← h.dir]
    rcases rootFreed_cases kind d g with ⟨rfl, hk⟩ | ⟨hne, hwas, hk⟩ | ⟨hne, hdir, -, hk⟩
    · simp [hk, hroot]
    · rcases hwas with ⟨j, hwas⟩ | ⟨sl, hwas⟩
      · rw [hk, hwas]
        simp only [reduceCtorEq, FrameKind.dir.injEq, false_iff, not_and]
        rintro hne' rfl
        exact absurd rfl hne'
      · simp [hk, hwas]
    · rw [hk]
      refine ⟨fun hc => ⟨?_, hc⟩, fun hc => hc.2⟩
      rintro rfl
      exact hdir i hc
  · intro g e sl
    change _ ↔ e ∈ s.pgdirs.erase d ∧ sl < userTables ∧ s.pt e sl = some g
    rw [Finset.mem_erase, and_assoc, ← h.table]
    rcases rootFreed_cases kind d g with ⟨rfl, hk⟩ | ⟨hne, hwas, hk⟩ | ⟨hne, -, htable, hk⟩
    · simp [hk, hroot]
    · rcases hwas with ⟨j, hwas⟩ | ⟨sl', hwas⟩
      · simp [hk, hwas]
      · rw [hk, hwas]
        simp only [reduceCtorEq, FrameKind.table.injEq, false_iff, not_and]
        rintro hne' rfl
        exact absurd rfl hne'
    · rw [hk]
      refine ⟨fun hc => ⟨?_, hc⟩, fun hc => hc.2⟩
      rintro rfl
      exact htable sl hc

/-- What the end of the address space `d` makes of the memory, when its shape comes down to `σ`. -/
structure TearsDown (kind : Nat → FrameKind) (s t : Vm) (d : Nat) (σ : Shape) : Prop where
  env : t.pmm = s.pmm ∧ t.swapInitOk = s.swapInitOk ∧ t.swap = s.swap ∧ t.bootPgdir = s.bootPgdir
  pgdirs : t.pgdirs = s.pgdirs.erase d
  mmap : t.mmap = Function.update s.mmap d []
  frames : ∃ m : Vm, (∀ f, m.maps f = (s.maps f).filter fun x => x.1 ≠ d) ∧
    Frames (rootFreed (σ.uses (rekind kind m none) d) d) t
  others : ∀ e ∈ s.pgdirs, e ≠ d → ∀ w < userPages, t.pte e w = s.pte e w
  mem : ∀ g, g ≠ d → (∀ i, kind g ≠ FrameKind.dir d i) → (∀ sl, kind g ≠ FrameKind.table d sl) →
    t.mem g = s.mem g

theorem teardown_tearsDown (h : Frames kind s) (hd : d ∈ s.pgdirs) (hok : ∀ vma ∈ s.mmap d, vma.Ok)
    (hin : ∀ w < userPages, s.page d w ≠ none → InVmas (s.mmap d) w) :
    ∃ t, teardown s d = done t ∧
      TearsDown kind s t d ((s.shape d).exitAll (s.mmap d)) := by
  obtain ⟨m, hm, hunmaps⟩ := unmapAll_unmaps h hd hok
  have hdm : d ∈ m.pgdirs := hunmaps.env.pgdirs.symm ▸ hd
  have hempty : ∀ w < userPages, m.page d w = none := by
    intro w hw
    by_cases hin' : InVmas (s.mmap d) w
    · exact Pte.frame_eq_none.2 (hunmaps.cleared w hw hin')
    · rw [Vm.page, hunmaps.kept d hd w hw fun hc => hin' hc.2]
      by_contra hc
      exact hin' (hin w hw hc)
  have hshape : m.shape d = s.shape d := by
    have hdirs : (m.shape d).dirs = (s.shape d).dirs :=
      Finset.filter_congr fun i hi => by rw [hunmaps.next d hd i (Finset.mem_range.1 hi)]
    have htables : (m.shape d).tables = (s.shape d).tables :=
      Finset.filter_congr fun sl hsl => by rw [hunmaps.pt d hd sl (Finset.mem_range.1 hsl)]
    exact Shape.ext hdirs htables rfl
  have hmaps : ∀ f, m.maps f = (s.maps f).filter fun x => x.1 ≠ d := by
    intro f
    ext ⟨e, w⟩
    rw [Finset.mem_filter, mem_maps, mem_maps, hunmaps.env.pgdirs]
    constructor
    · rintro ⟨he, hw, hpage⟩
      have hne : e ≠ d := by
        rintro rfl
        rw [hempty w hw] at hpage
        cases hpage
      refine ⟨⟨he, hw, ?_⟩, hne⟩
      rw [Vm.page, ← hunmaps.kept e he w hw fun hc => hne hc.1]
      exact hpage
    · rintro ⟨⟨he, hw, hpage⟩, hne⟩
      refine ⟨he, hw, ?_⟩
      rw [Vm.page, hunmaps.kept e he w hw fun hc => hne hc.1]
      exact hpage
  obtain ⟨u, hu, hexits⟩ := exitAll_exits hdm (Exits.start hunmaps.frames hdm hempty) hok
  obtain ⟨t, ht, hframes, heq⟩ := hexits.frames.freeRoot (hexits.env.pgdirs.symm ▸ hdm) hexits.empty
  rw [hshape] at hexits hframes
  have henv := hunmaps.env.trans hexits.env
  refine ⟨mmDestroy t d, ?_, ?_⟩
  · unfold teardown exitMmap
    rw [hm, bind_done, hunmaps.env.mmap, hu, bind_done, ht]
    rfl
  · refine ⟨?_, ?_, ?_, ⟨m, hmaps, hframes⟩, ?_, ?_⟩
    · rw [heq]
      exact ⟨henv.pmm, henv.swapInitOk, henv.swap, henv.bootPgdir⟩
    · rw [heq]
      change u.pgdirs.erase d = _
      rw [henv.pgdirs]
    · rw [heq]
      change Function.update u.mmap d [] = _
      rw [henv.mmap]
    · intro e he hne w hw
      calc
        (mmDestroy t d).pte e w = u.pte e w := by rw [heq]; rfl
        _ = m.pte e w := hexits.others e (hunmaps.env.pgdirs.symm ▸ he) hne w hw
        _ = s.pte e w := hunmaps.kept e he w hw fun hc => hne hc.1
    · intro g hg hdir htable
      have hmem : (mmDestroy t d).mem = u.mem := by rw [heq]
      rw [hmem, hexits.mem g hg fun i hc => ?_, hunmaps.mem g htable]
      unfold rekind at hc
      rw [if_neg (by simp)] at hc
      split at hc
      · cases hc
      · exact hdir i hc

end TriOS
