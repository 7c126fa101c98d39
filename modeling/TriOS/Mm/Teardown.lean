import TriOS.Mm.PagingRuns

/-!
# Teardown — what the end of an address space gives back

The pages and the page directory always come back. The tables come back only where the areas are `Tidy`:
`exit_range` looks at one area at a time, and frees a level-0 directory when all slots of that area had a
table.
-/

namespace TriOS

open Outcome Transition

variable {kind : Nat → FrameKind} {s t : MmState} {vm : Vm} {ops : List MmOp} {σ : Shape} {d e f i sl : Nat}

/-- What an address space has to give back: its page directory, its level-0 directories and page tables,
and the pages that nothing else maps. -/
def Vm.Owns (s : Vm) (d f : Nat) : Prop :=
  f = d ∨ (∃ i < userDirs, s.next d i = some f) ∨ (∃ sl < userTables, s.pt d sl = some f) ∨
    (s.maps f).Nonempty ∧ ∀ x ∈ s.maps f, x.1 = d

/-- Exactly what the address space owned is free afterwards, besides what was free before. -/
def Restored (s t : Vm) (d : Nat) : Prop :=
  ∀ f, f ∈ t.free ↔ f ∈ s.free ∨ s.Owns d f

/-- `Owns`, by the use of the frame. -/
theorem Frames.owns_iff (h : Frames kind vm) (hd : d ∈ vm.pgdirs) : vm.Owns d f ↔
    f = d ∨ (∃ i, kind f = FrameKind.dir d i) ∨ (∃ sl, kind f = FrameKind.table d sl) ∨
      kind f = FrameKind.data ∧ ∀ x ∈ vm.maps f, x.1 = d := by
  refine or_congr Iff.rfl (or_congr ?_ (or_congr ?_ (and_congr_left fun _ => h.data_iff.symm)))
  · refine exists_congr fun i => ?_
    rw [h.dir]
    exact ⟨fun hc => ⟨hd, hc⟩, fun hc => hc.2⟩
  · refine exists_congr fun sl => ?_
    rw [h.table]
    exact ⟨fun hc => ⟨hd, hc⟩, fun hc => hc.2⟩

/-- What is free when the address space has ended with the shape `σ`. -/
theorem TearsDown.mem_free (h : Frames kind vm) (hd : d ∈ vm.pgdirs) {vm' : Vm}
    (htears : TearsDown kind vm vm' d σ) :
    f ∈ vm'.free ↔ f ∈ vm.free ∨ f = d ∨ (∃ i, kind f = FrameKind.dir d i ∧ i ∉ σ.dirs) ∨
      (∃ sl, kind f = FrameKind.table d sl ∧ sl ∉ σ.tables ∧ sl ∉ σ.lost) ∨
      kind f = FrameKind.data ∧ ∀ x ∈ vm.maps f, x.1 = d := by
  obtain ⟨m, hmaps, hframes⟩ := htears.frames
  have hroot := (h.root d).1 hd
  have hempty : m.maps f = ∅ ↔ ∀ x ∈ vm.maps f, x.1 = d := by
    rw [hmaps, Finset.filter_eq_empty_iff]
    exact forall_congr' fun x => imp_congr_right fun _ => not_not
  rw [hframes.free, h.free, ← hempty]
  by_cases hf : f = d
  · subst hf
    simp [rootFreed]
  · have hrekind : rekind kind m none f =
        if kind f = FrameKind.data ∧ m.maps f = ∅ then FrameKind.free else kind f := by
      unfold rekind
      rw [if_neg (by simp)]
    unfold rootFreed
    rw [if_neg hf]
    cases hk : kind f with
    | data =>
        rw [hk] at hrekind
        by_cases hm : m.maps f = ∅
        · rw [if_pos ⟨rfl, hm⟩] at hrekind
          rw [Shape.uses, hrekind]
          simp [hm]
        · rw [if_neg fun hc => hm hc.2] at hrekind
          rw [Shape.uses, hrekind]
          simp [hf, hm]
    | dir e i =>
        rw [hk, if_neg (by simp)] at hrekind
        rw [Shape.uses_dir hrekind]
        by_cases he : e = d
        · subst he
          by_cases hi : i ∈ σ.dirs <;> simp [hi, hf]
        · simp [he, hf]
    | table e sl =>
        rw [hk, if_neg (by simp)] at hrekind
        rw [Shape.uses_table hrekind]
        by_cases he : e = d
        · subst he
          by_cases hsl : sl ∈ σ.tables <;> by_cases hlost : sl ∈ σ.lost <;> simp [hsl, hlost, hf]
        · simp [he, hf]
    | free | root | held | other =>
        rw [hk, if_neg (by simp)] at hrekind
        rw [Shape.uses, hrekind]
        simp [hf]

theorem Vm.mem_shape_dirs : i ∈ (vm.shape d).dirs ↔ i < userDirs ∧ vm.next d i ≠ none := by
  simp [Vm.shape]

theorem Vm.mem_shape_tables : sl ∈ (vm.shape d).tables ↔ sl < userTables ∧ vm.pt d sl ≠ none := by
  simp [Vm.shape]

/-- Everything comes back exactly when nothing is left of any directory. -/
theorem TearsDown.restored_iff (h : Frames kind vm) (hd : d ∈ vm.pgdirs) {vm' : Vm}
    (htears : TearsDown kind vm vm' d σ)
    (hwithin : Shape.Within (vm.shape d).dirs (vm.shape d).tables σ) :
    Restored vm vm' d ↔ ∀ i < userDirs, σ.Clean i := by
  constructor
  · intro hrestored i _
    refine ⟨fun hi => ?_, fun sl hsl _ => ?_, fun sl hsl _ => ?_⟩
    · obtain ⟨hlt, hne⟩ := Vm.mem_shape_dirs.1 (hwithin.dirs hi)
      obtain ⟨f, hf⟩ := Option.ne_none_iff_exists'.1 hne
      have hk := (h.dir f d i).2 ⟨hd, hlt, hf⟩
      have hfree := (hrestored f).2 (Or.inr (Or.inr (Or.inl ⟨i, hlt, hf⟩)))
      rw [htears.mem_free h hd, h.free, hk] at hfree
      have hroot := (h.root d).1 hd
      rcases hfree with hc | rfl | ⟨j, hj, hnot⟩ | ⟨sl, hsl, -⟩ | ⟨hc, -⟩
      · cases hc
      · rw [hroot] at hk
        cases hk
      · cases hj
        exact hnot hi
      · cases hsl
      · cases hc
    all_goals
      have hin : sl ∈ (vm.shape d).tables := by
        first
        | exact hwithin.tables hsl
        | exact hwithin.lost hsl
      obtain ⟨hlt, hne⟩ := Vm.mem_shape_tables.1 hin
      obtain ⟨f, hf⟩ := Option.ne_none_iff_exists'.1 hne
      have hk := (h.table f d sl).2 ⟨hd, hlt, hf⟩
      have hfree := (hrestored f).2 (Or.inr (Or.inr (Or.inr (Or.inl ⟨sl, hlt, hf⟩))))
      rw [htears.mem_free h hd, h.free, hk] at hfree
      have hroot := (h.root d).1 hd
      rcases hfree with hc | rfl | ⟨j, hj, -⟩ | ⟨sl', hsl', hnot, hnot'⟩ | ⟨hc, -⟩
      · cases hc
      · rw [hroot] at hk
        cases hk
      · cases hj
      · cases hsl'
        first
        | exact absurd hsl hnot
        | exact absurd hsl hnot'
      · cases hc
  · intro hclean f
    rw [htears.mem_free h hd, h.owns_iff hd]
    refine or_congr Iff.rfl (or_congr Iff.rfl (or_congr ?_ (or_congr ?_ Iff.rfl)))
    · refine exists_congr fun i => ⟨fun hc => hc.1, fun hk => ⟨hk, ?_⟩⟩
      exact (hclean i ((h.dir f d i).1 hk).2.1).dirs
    · refine exists_congr fun sl => ⟨fun hc => hc.1, fun hk => ⟨hk, ?_, ?_⟩⟩
      · exact fun hc => (hclean _ (div_lt_userDirs ((h.table f d sl).1 hk).2.1)).tables sl hc rfl
      · exact fun hc => (hclean _ (div_lt_userDirs ((h.table f d sl).1 hk).2.1)).lost sl hc rfl

theorem TearsDown.owned (h : Frames kind vm) (hd : d ∈ vm.pgdirs) {vm' : Vm}
    (htears : TearsDown kind vm vm' d σ) (hf : f ∈ vm'.free) : f ∈ vm.free ∨ vm.Owns d f := by
  rw [h.owns_iff hd]
  rcases (htears.mem_free h hd).1 hf with hf | hf | ⟨i, hf, -⟩ | ⟨sl, hf, -⟩ | hf
  · exact Or.inl hf
  · exact Or.inr (Or.inl hf)
  · exact Or.inr (Or.inr (Or.inl ⟨i, hf⟩))
  · exact Or.inr (Or.inr (Or.inr (Or.inl ⟨sl, hf⟩)))
  · exact Or.inr (Or.inr (Or.inr (Or.inr hf)))

/-- The end of an address space gives back all that it owned exactly when its areas are tidy. -/
theorem Frames.restored_iff {vm' : Vm} (h : Frames kind vm) (hd : d ∈ vm.pgdirs)
    (htears : TearsDown kind vm vm' d ((vm.shape d).exitAll (vm.mmap d))) :
    Restored vm vm' d ↔ ∀ i ∈ (vm.shape d).dirs, Tidy (vm.shape d).tables i (vm.mmap d) := by
  have hwithin : Shape.Within (vm.shape d).dirs (vm.shape d).tables (vm.shape d) :=
    ⟨subset_rfl, subset_rfl, Finset.empty_subset _⟩
  rw [htears.restored_iff h hd hwithin.exitAll]
  have hlost : ∀ i, ∀ sl ∈ (vm.shape d).lost, sl / nPteEntry ≠ i := fun i sl hsl => by
    simp [Vm.shape] at hsl
  constructor
  · intro hclean i hi
    have hlt := (Vm.mem_shape_dirs.1 hi).1
    exact (Shape.exitAll_clean_iff hlt hi (hlost i)).1 (hclean i hlt)
  · intro htidy i hlt
    by_cases hi : i ∈ (vm.shape d).dirs
    · exact (Shape.exitAll_clean_iff hlt hi (hlost i)).2 (htidy i hi)
    · -- where there is no directory there is no table
      rw [(Shape.exitAll_gone hlt hi).clean_iff]
      refine ⟨hi, fun sl hsl hdiv => hi ?_, hlost i⟩
      obtain ⟨-, hpt⟩ := Vm.mem_shape_tables.1 hsl
      rw [Vm.mem_shape_dirs]
      refine ⟨hlt, fun hnone => hpt ?_⟩
      rw [Vm.pt, hdiv, hnone]
      rfl

/-- The end of an address space in any state in which the invariant holds. -/
theorem MmInv.teardown_iff (h : MmInv kind s) (hd : d ∈ s.vm.pgdirs) :
    ∃ vm, TriOS.teardown s.vm d = done vm ∧
      (∀ f ∈ vm.free, f ∈ s.vm.free ∨ s.vm.Owns d f) ∧
      (Restored s.vm vm d ↔
        ∀ i ∈ (s.vm.shape d).dirs, Tidy (s.vm.shape d).tables i (s.vm.mmap d)) := by
  obtain ⟨vm, hvm, htears, -⟩ := h.teardown hd (MmOp.exit d)
  exact ⟨vm, hvm, fun f hf => htears.owned h.frames hd hf, h.frames.restored_iff hd htears⟩

/-- In every reachable state the end of an address space frees nothing that is not its own, and it gives
back all that it owned if and only if its areas are tidy in every gigabyte. -/
theorem teardown_restored_iff (h0 : s.Boot) (hrun : Run MmStep s ops t) (hd : d ∈ t.vm.pgdirs) :
    ∃ vm, teardown t.vm d = done vm ∧
      (∀ f ∈ vm.free, f ∈ t.vm.free ∨ t.vm.Owns d f) ∧
      (Restored t.vm vm d ↔
        ∀ i ∈ (t.vm.shape d).dirs, Tidy (t.vm.shape d).tables i (t.vm.mmap d)) := by
  obtain ⟨kind, hinv⟩ := MmInv.run h0 hrun
  exact hinv.teardown_iff hd

/-! ## Areas that are not tidy -/

/-- A machine with six free frames. -/
def sixFrames : MmState where
  vm := { fourFrames.vm with
    pmm := lowestPick {1, 2, 3, 4, 5, 6} (by decide)
    free := {1, 2, 3, 4, 5, 6} }
  held := ∅

theorem sixFrames_boot : sixFrames.Boot :=
  ⟨by decide, fun _ _ => rfl, rfl, rfl, by decide, fun _ _ => not_valid_zero⟩

/-- An area of the last page of one slot and the first page of the next, of which the first is touched. -/
theorem sixFrames_run : ∃ t, Run MmStep sixFrames
    [MmOp.setupPgdir, MmOp.mmMap 1 0x3FF000 0x2000 vmWrite true, MmOp.doPgfault 1 0x3FF000] t ∧
      1 ∈ t.vm.pgdirs ∧ t.vm.next 1 0 ≠ none ∧ t.vm.pt 1 2 = none ∧
      t.vm.mmap 1 = [{ start := 0x3FF000, stop := 0x401000, flags := vmWrite }] :=
  ⟨_, Run.cons ⟨trivial, rfl⟩ (Run.cons ⟨Finset.mem_insert_self _ _, rfl⟩
    (Run.cons ⟨Finset.mem_insert_self _ _, rfl⟩ Run.nil)), Finset.mem_insert_self _ _, by decide, by decide,
    by decide⟩

/-- The level-0 directory of the untouched slot does not come back. -/
theorem teardown_leaks : ∃ t vm, Run MmStep sixFrames
    [MmOp.setupPgdir, MmOp.mmMap 1 0x3FF000 0x2000 vmWrite true, MmOp.doPgfault 1 0x3FF000] t ∧
      1 ∈ t.vm.pgdirs ∧ teardown t.vm 1 = done vm ∧ ¬ Restored t.vm vm 1 := by
  obtain ⟨t, hrun, hd, hnext, hpt, hmmap⟩ := sixFrames_run
  obtain ⟨kind, hinv⟩ := MmInv.run sixFrames_boot hrun
  obtain ⟨vm, hvm, -, hiff⟩ := hinv.teardown_iff hd
  refine ⟨t, vm, hrun, hd, hvm, fun hrestored => ?_⟩
  have htidy := hiff.1 hrestored 0 (Vm.mem_shape_dirs.2 ⟨by decide, hnext⟩)
  rw [hmmap, tidy_cons_of_not_closes] at htidy
  · exact tidy_nil htidy
  · rintro ⟨-, hsub, -⟩
    have hslot : 2 ∈ (t.vm.shape 1).tables :=
      hsub (mem_rangeSlots.2 ⟨by decide, by decide, by decide⟩)
    exact (Vm.mem_shape_tables.1 hslot).2 hpt

theorem teardown_restored_iff_fourFrames : ∃ t vm, Run MmStep fourFrames
    [MmOp.setupPgdir, MmOp.mmMap 1 0x200000 0x2000 vmWrite true, MmOp.doPgfault 1 0x200000] t ∧
      teardown t.vm 1 = done vm ∧ (Restored t.vm vm 1 ↔
        ∀ i ∈ (t.vm.shape 1).dirs, Tidy (t.vm.shape 1).tables i (t.vm.mmap 1)) := by
  obtain ⟨t, hrun, hd, -⟩ := fourFrames_run
  obtain ⟨vm, hvm, -, hiff⟩ := teardown_restored_iff fourFrames_boot hrun hd
  exact ⟨t, vm, hrun, hvm, hiff⟩

end TriOS
