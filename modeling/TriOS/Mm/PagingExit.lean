import TriOS.Mm.PagingPages
import TriOS.Mm.Shape

/-!
# PagingExit — the tables that exit_range gives back

When an address space ends, its pages are unmapped and its tables are empty. `Exits` connects the memory
with the shape that is left: one table, or one directory, is freed at a time.
-/

namespace TriOS

open Outcome

variable {kind kind' : Nat → FrameKind} {s t u : Vm} {d d' e f g p q i j v w sl sl' : Nat} {x : Pte}

/-! ## Frames that are retired -/

/-- Directories and tables go out of use while the pages stay. -/
theorem Frames.retire (h : Frames kind s) (hpmm : t.pmm = s.pmm) (hboot : t.bootPgdir = s.bootPgdir)
    (hbootMem : t.mem s.bootPgdir = s.mem s.bootPgdir)
    (hkind : ∀ f, kind' f = kind f ∨ ¬ (kind f).IsPage ∧ kind f ≠ FrameKind.other ∧
      (kind' f = FrameKind.free ∧ t.ref f = 0 ∨ kind' f = FrameKind.other))
    (hfree : ∀ f, f ∈ t.free ↔ kind' f = FrameKind.free)
    (href : ∀ f, (kind f).IsPage → t.ref f = s.ref f) (hmaps : ∀ f, t.maps f = s.maps f)
    (hroot : ∀ d, d ∈ t.pgdirs ↔ kind' d = FrameKind.root)
    (hdir : ∀ p d i, kind' p = FrameKind.dir d i ↔ d ∈ t.pgdirs ∧ i < userDirs ∧ t.next d i = some p)
    (htable : ∀ p d sl, kind' p = FrameKind.table d sl ↔
      d ∈ t.pgdirs ∧ sl < userTables ∧ t.pt d sl = some p) : Frames kind' t := by
  have hpage : ∀ f, (kind f).IsPage → kind' f = kind f := by
    intro f hf
    rcases hkind f with heq | ⟨hnot, -⟩
    · exact heq
    · exact absurd hf hnot
  refine ⟨?_, hfree, hroot, hdir, htable, ?_, ?_, ?_, ?_, ?_⟩
  · intro f hf
    rw [hpmm]
    refine h.pool f fun hc => ?_
    rcases hkind f with heq | ⟨-, hne, -⟩
    · exact hf (heq.trans hc)
    · exact hne hc
  · intro d v f hd hv hf
    have hin : (d, v) ∈ s.maps f := hmaps f ▸ mem_maps.2 ⟨hd, hv, hf⟩
    obtain ⟨hd', hv', hf'⟩ := mem_maps.1 hin
    have hdata := h.data d v f hd' hv' hf'
    rw [hpage f (by simp [FrameKind.IsPage, hdata]), hdata]
  · intro f hf
    rcases hkind f with heq | ⟨-, -, hnew⟩
    · rw [heq] at hf
      rw [hmaps, href f (by simp [FrameKind.IsPage, hf])]
      exact h.ref f hf
    · rw [hf] at hnew
      simp at hnew
  · intro f hf
    rcases hkind f with heq | ⟨-, -, hnew⟩
    · rw [heq] at hf
      rw [href f (by rcases hf with hf | hf <;> simp [FrameKind.IsPage, hf])]
      exact h.unref f hf
    · rcases hnew with ⟨-, hzero⟩ | hother
      · exact hzero
      · rw [hother] at hf
        simp at hf
  · rw [hboot]
    rcases hkind s.bootPgdir with heq | ⟨-, hne, -⟩
    · exact heq.trans h.boot.1
    · exact absurd h.boot.1 hne
  · intro i hi
    rw [hboot, hbootMem]
    exact h.boot.2 i hi

/-- The places of an address space whose tables are gone. -/
structure Prunes (s t : Vm) (d : Nat) (I S : Nat → Prop) : Prop where
  next : ∀ e ∈ s.pgdirs, ∀ j < userDirs, ¬ (e = d ∧ I j) → t.next e j = s.next e j
  nextNone : ∀ j < userDirs, I j → t.next d j = none
  pt : ∀ e ∈ s.pgdirs, ∀ sl < userTables, ¬ (e = d ∧ S sl) → t.pt e sl = s.pt e sl
  ptNone : ∀ sl < userTables, S sl → t.pt d sl = none
  pte : ∀ e ∈ s.pgdirs, ∀ w < userPages, ¬ (e = d ∧ S (w / nPteEntry)) → t.pte e w = s.pte e w

/-- An entry of a level-0 directory is cleared. -/
theorem Frames.prunesTable (h : Frames kind s) (hq : kind q = FrameKind.dir d (sl / nPteEntry))
    (hmem : ∀ g k, t.mem g k = if g = q ∧ k = sl % nPteEntry then 0 else s.mem g k) :
    Prunes s t d (fun _ => False) fun sl' => sl' = sl := by
  obtain ⟨hd, hi, hnext⟩ := (h.dir q d _).1 hq
  have hsame : ∀ g, g ≠ q → t.mem g = s.mem g := by
    intro g hg
    funext k
    rw [hmem, if_neg fun hc => hg hc.1]
  have hnexts : ∀ e ∈ s.pgdirs, ∀ j < userDirs, t.next e j = s.next e j := by
    intro e he j _
    rw [Vm.next, hsame e (h.root_ne_dir he hd hi hnext), Vm.next]
  have hpts : ∀ e ∈ s.pgdirs, ∀ sl' < userTables, ¬ (e = d ∧ sl' = sl) → t.pt e sl' = s.pt e sl' := by
    intro e he sl' hsl' hne
    rw [Vm.pt, hnexts e he _ (div_lt_userDirs hsl'), Vm.pt]
    cases hq' : s.next e (sl' / nPteEntry) with
    | none => rfl
    | some q' =>
        simp only [Option.bind_some, Vm.next, hmem]
        rw [if_neg]
        rintro ⟨rfl, hindex⟩
        obtain ⟨rfl, hdiv⟩ := h.dir_inj he (div_lt_userDirs hsl') hq' hd hi hnext
        have h1 := Nat.div_add_mod sl' nPteEntry
        have h2 := Nat.div_add_mod sl nPteEntry
        rw [hindex, hdiv] at h1
        exact hne ⟨rfl, h1.symm.trans h2⟩
  refine ⟨fun e he j hj _ => hnexts e he j hj, fun _ _ hc => hc.elim, hpts, ?_, ?_⟩
  · rintro sl' hsl' rfl
    rw [Vm.pt, hnexts d hd _ hi, hnext]
    change Pte.frame (t.mem q _) = none
    rw [hmem, if_pos ⟨rfl, rfl⟩, Pte.frame_zero]
  · intro e he w hw hne
    rw [Vm.pte, hpts e he _ (div_lt_userTables hw) hne, Vm.pte]
    cases hp : s.pt e (w / nPteEntry) with
    | none => rfl
    | some p =>
        have hne' := h.dir_ne_table hd hi hnext he (div_lt_userTables hw) hp
        simp only [hsame p (Ne.symm hne')]

/-- An entry of a page directory is cleared. -/
theorem Frames.prunesDir (h : Frames kind s) (hd : d ∈ s.pgdirs)
    (hmem : ∀ g k, t.mem g k = if g = d ∧ k = i then 0 else s.mem g k) :
    Prunes s t d (fun j => j = i) fun sl => sl / nPteEntry = i := by
  have hsame : ∀ g, g ≠ d → t.mem g = s.mem g := by
    intro g hg
    funext k
    rw [hmem, if_neg fun hc => hg hc.1]
  have hnexts : ∀ e, ∀ j, ¬ (e = d ∧ j = i) → t.next e j = s.next e j := by
    intro e j hne
    rw [Vm.next, hmem, if_neg hne, Vm.next]
  have hnone : t.next d i = none := by
    rw [Vm.next, hmem, if_pos ⟨rfl, rfl⟩, Pte.frame_zero]
  have hpts : ∀ e ∈ s.pgdirs, ∀ sl < userTables, ¬ (e = d ∧ sl / nPteEntry = i) →
      t.pt e sl = s.pt e sl := by
    intro e he sl hsl hne
    rw [Vm.pt, hnexts e _ hne, Vm.pt]
    cases hq : s.next e (sl / nPteEntry) with
    | none => rfl
    | some q =>
        have hne' := h.root_ne_dir hd he (div_lt_userDirs hsl) hq
        simp only [Option.bind_some, Vm.next, hsame q (Ne.symm hne')]
  refine ⟨fun e _ j _ => hnexts e j, ?_, hpts, ?_, ?_⟩
  · rintro j _ rfl
    exact hnone
  · rintro sl _ rfl
    rw [Vm.pt, hnone]
    rfl
  · intro e he w hw hne
    rw [Vm.pte, hpts e he _ (div_lt_userTables hw) hne, Vm.pte]
    cases hp : s.pt e (w / nPteEntry) with
    | none => rfl
    | some p =>
        have hne' := h.root_ne_table hd he (div_lt_userTables hw) hp
        simp only [hsame p (Ne.symm hne')]

/-- Where no page is mapped, tables can go and the pages stay. -/
theorem Prunes.page {I S : Nat → Prop} (h : Prunes s t d I S)
    (hempty : ∀ w < userPages, s.page d w = none) (he : e ∈ s.pgdirs) (hw : w < userPages) :
    t.page e w = s.page e w := by
  by_cases hc : e = d ∧ S (w / nPteEntry)
  · obtain ⟨rfl, hS⟩ := hc
    rw [hempty w hw, Vm.page, Vm.pte_of_none (h.ptNone _ (div_lt_userTables hw) hS), Pte.frame_zero]
  · rw [Vm.page, h.pte e he w hw hc, Vm.page]

theorem Prunes.maps {I S : Nat → Prop} (h : Prunes s t d I S)
    (hempty : ∀ w < userPages, s.page d w = none) (hpgdirs : t.pgdirs = s.pgdirs) (f : Nat) :
    t.maps f = s.maps f := by
  ext ⟨e, w⟩
  rw [mem_maps, mem_maps, hpgdirs]
  exact and_congr_right fun he => and_congr_right fun hw => by rw [h.page hempty he hw]

/-! ## The shape of an address space -/

/-- The shape of an address space in the memory. -/
def Vm.shape (s : Vm) (d : Nat) : Shape where
  dirs := (Finset.range userDirs).filter fun i => s.next d i ≠ none
  tables := (Finset.range userTables).filter fun sl => s.pt d sl ≠ none
  lost := ∅

/-- The use of the frames when the shape of `d` has come down to `σ`. -/
def Shape.uses (σ : Shape) (kind : Nat → FrameKind) (d f : Nat) : FrameKind :=
  match kind f with
  | FrameKind.dir e i => if e = d ∧ i ∉ σ.dirs then FrameKind.free else FrameKind.dir e i
  | FrameKind.table e sl =>
      if e = d ∧ sl ∉ σ.tables then
        if sl ∈ σ.lost then FrameKind.other else FrameKind.free
      else FrameKind.table e sl
  | k => k

variable {σ : Shape}

theorem Shape.uses_dir (hf : kind f = FrameKind.dir e i) :
    σ.uses kind d f = if e = d ∧ i ∉ σ.dirs then FrameKind.free else FrameKind.dir e i := by
  rw [Shape.uses, hf]

theorem Shape.uses_table (hf : kind f = FrameKind.table e sl) :
    σ.uses kind d f = if e = d ∧ sl ∉ σ.tables then
      if sl ∈ σ.lost then FrameKind.other else FrameKind.free else FrameKind.table e sl := by
  rw [Shape.uses, hf]

theorem Shape.uses_of_ne (hdir : ∀ i, kind f ≠ FrameKind.dir d i)
    (htable : ∀ sl, kind f ≠ FrameKind.table d sl) : σ.uses kind d f = kind f := by
  cases hf : kind f with
  | dir e i =>
      rw [Shape.uses_dir hf, if_neg]
      rintro ⟨rfl, -⟩
      exact hdir i hf
  | table e sl =>
      rw [Shape.uses_table hf, if_neg]
      rintro ⟨rfl, -⟩
      exact htable sl hf
  | _ => rw [Shape.uses, hf]

/-- A frame that is still a table was one before. -/
theorem Shape.uses_eq_table : σ.uses kind d f = FrameKind.table d sl ↔
    kind f = FrameKind.table d sl ∧ sl ∈ σ.tables := by
  unfold Shape.uses
  cases hf : kind f with
  | dir e i =>
      dsimp only
      split <;> simp
  | table e sl' =>
      dsimp only
      split
      · next hc =>
          split
          · simp only [reduceCtorEq, FrameKind.table.injEq, false_iff, not_and]
            rintro ⟨rfl, rfl⟩
            exact hc.2
          · simp only [reduceCtorEq, FrameKind.table.injEq, false_iff, not_and]
            rintro ⟨rfl, rfl⟩
            exact hc.2
      · next hc =>
          simp only [FrameKind.table.injEq]
          refine ⟨?_, fun h => h.1⟩
          rintro ⟨rfl, rfl⟩
          refine ⟨⟨rfl, rfl⟩, ?_⟩
          by_contra hnot
          exact hc ⟨rfl, hnot⟩
  | _ => simp

theorem Shape.uses_eq_dir : σ.uses kind d f = FrameKind.dir d i ↔
    kind f = FrameKind.dir d i ∧ i ∈ σ.dirs := by
  unfold Shape.uses
  cases hf : kind f with
  | dir e j =>
      dsimp only
      split
      · next hc =>
          simp only [reduceCtorEq, FrameKind.dir.injEq, false_iff, not_and]
          rintro ⟨rfl, rfl⟩
          exact hc.2
      · next hc =>
          simp only [FrameKind.dir.injEq]
          refine ⟨?_, fun h => h.1⟩
          rintro ⟨rfl, rfl⟩
          refine ⟨⟨rfl, rfl⟩, ?_⟩
          by_contra hnot
          exact hc ⟨rfl, hnot⟩
  | table e sl =>
      dsimp only
      split
      · split <;> simp
      · simp
  | _ => simp

/-- `s` is what the exit of `d` has made of `s₀`, whose frames had the uses `kind`. -/
structure Exits (kind : Nat → FrameKind) (s₀ : Vm) (d : Nat) (σ : Shape) (s : Vm) : Prop where
  env : s₀.SameEnv s
  frames : Frames (σ.uses kind d) s
  dirs : ∀ i < userDirs, i ∈ σ.dirs ↔ s.next d i ≠ none
  tables : ∀ sl < userTables, sl ∈ σ.tables ↔ s.pt d sl ≠ none
  lost : Disjoint σ.lost σ.tables
  others : ∀ e ∈ s₀.pgdirs, e ≠ d → ∀ w < userPages, s.pte e w = s₀.pte e w
  empty : ∀ w < userPages, s.page d w = none
  mem : ∀ g, g ≠ d → (∀ i, kind g ≠ FrameKind.dir d i) → s.mem g = s₀.mem g

variable {s₀ : Vm}

theorem Exits.start (h : Frames kind s) (hd : d ∈ s.pgdirs) (hempty : ∀ w < userPages, s.page d w = none) :
    Exits kind s d (s.shape d) s := by
  have hkind : (s.shape d).uses kind d = kind := by
    funext f
    cases hf : kind f with
    | dir e i =>
        rw [Shape.uses_dir hf, if_neg]
        rintro ⟨rfl, hi⟩
        obtain ⟨-, hi', hp⟩ := (h.dir f e i).1 hf
        exact hi (by simp [Vm.shape, hi', hp])
    | table e sl =>
        rw [Shape.uses_table hf, if_neg]
        rintro ⟨rfl, hsl⟩
        obtain ⟨-, hsl', hp⟩ := (h.table f e sl).1 hf
        exact hsl (by simp [Vm.shape, hsl', hp])
    | _ => rw [Shape.uses, hf]
  refine ⟨Vm.SameEnv.refl s, hkind.symm ▸ h, ?_, ?_, ?_, fun _ _ _ _ _ => rfl, hempty, fun _ _ _ => rfl⟩
  · intro i hi
    simp [Vm.shape, hi]
  · intro sl hsl
    simp [Vm.shape, hsl]
  · simp [Vm.shape]

/-- `free_page` of a frame that is in use. -/
theorem freePage_eq (hpool : f ∈ s.pmm.pool) (hfree : f ∉ s.free) :
    freePage s f = done { s.setPageRef f 0 with free := insert f s.free } := by
  unfold freePage
  rw [assert_of hpool, bind_done, if_neg hfree]
  rfl

/-- A table of the slot `sl` is freed. -/
theorem Exits.freeTable (h : Exits kind s₀ d σ s) (hd : d ∈ s₀.pgdirs) (hsl : sl < userTables)
    (hin : sl ∈ σ.tables) (hq : s.next d (sl / nPteEntry) = some q) :
    ∃ t, freeTable s q (sl % nPteEntry) = done t ∧ Exits kind s₀ d (σ.freeTables {sl}) t := by
  have hd' : d ∈ s.pgdirs := h.env.pgdirs.symm ▸ hd
  have hi := div_lt_userDirs hsl
  obtain ⟨p, hp⟩ := Option.ne_none_iff_exists'.1 ((h.tables sl hsl).1 hin)
  have hentry : s.next q (sl % nPteEntry) = some p := by
    rw [Vm.pt, hq] at hp
    exact hp
  have hkq := (h.frames.dir q d _).2 ⟨hd', hi, hq⟩
  have hkp := (h.frames.table p d sl).2 ⟨hd', hsl, hp⟩
  have hnotFree : p ∉ s.free := by
    rw [h.frames.free, hkp]
    simp
  -- no page is mapped, so that no entry of the table is valid
  have hallInvalid : ∀ k < nPteEntry, ¬ (s.mem p k).Valid := by
    intro k hk
    have hw : sl * nPteEntry + k < userPages := by
      unfold userTables at hsl
      unfold nPteEntry userPages at *
      omega
    have hdiv : (sl * nPteEntry + k) / nPteEntry = sl := by
      unfold nPteEntry at *
      omega
    have hmod : (sl * nPteEntry + k) % nPteEntry = k := by
      unfold nPteEntry at *
      omega
    have hnone := h.empty _ hw
    rw [Vm.page, Vm.pte_of_pt (hdiv.symm ▸ hp), hmod] at hnone
    exact Pte.frame_eq_none.1 hnone
  let t := Vm.setWord { s.setPageRef p 0 with free := insert p s.free } q (sl % nPteEntry) 0
  have hmem : ∀ g k, t.mem g k = if g = q ∧ k = sl % nPteEntry then 0 else s.mem g k := fun g k =>
    setWord_mem g k
  have hprunes := h.frames.prunesTable hkq hmem
  have henv : s.SameEnv t := ⟨rfl, rfl, rfl, rfl, rfl, rfl, rfl⟩
  have hmaps : ∀ f, t.maps f = s.maps f := fun f => hprunes.maps h.empty rfl f
  -- the table is the only frame of its place
  have hunique : ∀ f, σ.uses kind d f = FrameKind.table d sl ↔ f = p := by
    intro f
    rw [h.frames.table]
    exact ⟨fun hc => Option.some.inj (hc.2.2.symm.trans hp), fun hc => hc ▸ ⟨hd', hsl, hp⟩⟩
  have hkind : ∀ f, (σ.freeTables {sl}).uses kind d f =
      if f = p then FrameKind.free else σ.uses kind d f := by
    intro f
    by_cases hf : f = p
    · obtain ⟨hf', -⟩ := Shape.uses_eq_table.1 ((hunique f).2 hf)
      rw [if_pos hf, Shape.uses_table hf', if_pos ⟨rfl, by simp [Shape.freeTables]⟩,
        if_neg (show sl ∉ (σ.freeTables {sl}).lost from Finset.disjoint_right.1 h.lost hin)]
    · rw [if_neg hf]
      cases hk : kind f with
      | dir e i => rw [Shape.uses_dir hk, Shape.uses_dir hk]; rfl
      | table e sl' =>
          rw [Shape.uses_table hk, Shape.uses_table hk]
          have hne : ¬ (e = d ∧ sl' = sl) := by
            rintro ⟨rfl, rfl⟩
            exact hf ((hunique f).1 (Shape.uses_eq_table.2 ⟨hk, hin⟩))
          have hiff : e = d ∧ sl' ∉ (σ.freeTables {sl}).tables ↔ e = d ∧ sl' ∉ σ.tables := by
            refine and_congr_right fun he => ?_
            have hne' : sl' ≠ sl := fun hc => hne ⟨he, hc⟩
            simp [Shape.freeTables, hne']
          simp only [hiff]
          rfl
      | _ => rw [Shape.uses, Shape.uses, hk]
  refine ⟨t, ?_, ?_⟩
  · unfold TriOS.freeTable
    rw [pde2page_eq (by exact hentry) (h.frames.table_lt hd' hsl hp), bind_done, if_pos hallInvalid,
      freePage_eq (h.frames.pool p (by simp [hkp])) hnotFree]
    rfl
  · refine ⟨h.env.trans henv, ?_, ?_, ?_, ?_, ?_, ?_, ?_⟩
    · refine h.frames.retire rfl rfl ?_ ?_ ?_ ?_ hmaps ?_ ?_ ?_
      · funext k
        rw [hmem, if_neg fun hc => h.frames.boot_ne (by simp [hkq]) hc.1]
      · intro f
        rw [hkind]
        by_cases hf : f = p
        · subst hf
          right
          rw [if_pos rfl, hkp]
          exact ⟨by simp [FrameKind.IsPage], by simp, Or.inl ⟨rfl, Function.update_self _ _ _⟩⟩
        · exact Or.inl (if_neg hf)
      · intro f
        change f ∈ insert p s.free ↔ _
        rw [hkind, Finset.mem_insert]
        by_cases hf : f = p
        · simp [hf]
        · simp [hf, h.frames.free]
      · intro f hf
        refine Function.update_of_ne ?_ _ _
        rintro rfl
        rw [hkp] at hf
        simp [FrameKind.IsPage] at hf
      · intro e
        rw [hkind]
        change e ∈ s.pgdirs ↔ _
        rw [h.frames.root]
        by_cases he : e = p
        · subst he
          simp [hkp]
        · rw [if_neg he]
      · intro g e j
        change _ ↔ e ∈ s.pgdirs ∧ _
        rw [hkind]
        have hnext : e ∈ s.pgdirs ∧ j < userDirs ∧ t.next e j = some g ↔
            σ.uses kind d g = FrameKind.dir e j := by
          rw [h.frames.dir]
          exact and_congr_right fun he => and_congr_right fun hj => by rw [hprunes.next e he j hj (by simp)]
        rw [hnext]
        by_cases hg : g = p
        · subst hg
          simp [hkp]
        · rw [if_neg hg]
      · intro g e sl'
        change _ ↔ e ∈ s.pgdirs ∧ _
        rw [hkind]
        by_cases hg : g = p
        · rw [if_pos hg]
          refine ⟨fun hc => by simp at hc, fun hc => ?_⟩
          obtain ⟨he, hsl', hpt⟩ := hc
          by_cases hc : e = d ∧ sl' = sl
          · rw [hc.1, hprunes.ptNone sl' hsl' hc.2] at hpt
            cases hpt
          · rw [hprunes.pt e he sl' hsl' hc] at hpt
            have hk := (h.frames.table g e sl').2 ⟨he, hsl', hpt⟩
            rw [hg, hkp] at hk
            injection hk with h1 h2
            exact absurd ⟨h1.symm, h2.symm⟩ hc
        · rw [if_neg hg, h.frames.table]
          refine and_congr_right fun he => and_congr_right fun hsl' => ?_
          by_cases hc : e = d ∧ sl' = sl
          · obtain ⟨rfl, rfl⟩ := hc
            rw [hprunes.ptNone sl' hsl' rfl, hp]
            simp [Ne.symm hg]
          · rw [hprunes.pt e he sl' hsl' hc]
    · intro j hj
      rw [hprunes.next d hd' j hj (by simp)]
      exact h.dirs j hj
    · intro sl' hsl'
      by_cases hc : sl' = sl
      · simp [Shape.freeTables, hc, hprunes.ptNone sl hsl rfl]
      · rw [hprunes.pt d hd' sl' hsl' fun hc' => hc hc'.2, ← h.tables sl' hsl']
        simp [Shape.freeTables, hc]
    · exact h.lost.mono_right Finset.sdiff_subset
    · intro e he hne w hw
      rw [hprunes.pte e (h.env.pgdirs.symm ▸ he) w hw fun hc => hne hc.1]
      exact h.others e he hne w hw
    · intro w hw
      rw [hprunes.page h.empty hd' hw]
      exact h.empty w hw
    · intro g hg hdir
      have hne : g ≠ q := by
        rintro rfl
        exact hdir _ (Shape.uses_eq_dir.1 hkq).1
      rw [← h.mem g hg hdir]
      funext k
      rw [hmem, if_neg fun hc => hne hc.1]

/-- The directory of the gigabyte `i` is freed: the tables that it still has are lost. -/
theorem Exits.freeDir (h : Exits kind s₀ d σ s) (hd : d ∈ s₀.pgdirs) (hi : i < userDirs)
    (hin : i ∈ σ.dirs) (hq : s.next d i = some q) :
    ∃ t, freePage s q = done t ∧ Exits kind s₀ d (σ.freeDir i) (t.setWord d i 0) := by
  have hd' : d ∈ s.pgdirs := h.env.pgdirs.symm ▸ hd
  have hkq := (h.frames.dir q d i).2 ⟨hd', hi, hq⟩
  have hnotFree : q ∉ s.free := by
    rw [h.frames.free, hkq]
    simp
  let t' : Vm := { s.setPageRef q 0 with free := insert q s.free }
  let t := t'.setWord d i 0
  have hmem : ∀ g k, t.mem g k = if g = d ∧ k = i then 0 else s.mem g k := fun g k => setWord_mem g k
  have hprunes := h.frames.prunesDir hd' hmem
  have henv : s.SameEnv t := ⟨rfl, rfl, rfl, rfl, rfl, rfl, rfl⟩
  have hmaps : ∀ f, t.maps f = s.maps f := fun f => hprunes.maps h.empty rfl f
  have hunique : ∀ f, σ.uses kind d f = FrameKind.dir d i ↔ f = q := by
    intro f
    rw [h.frames.dir]
    exact ⟨fun hc => Option.some.inj (hc.2.2.symm.trans hq), fun hc => hc ▸ ⟨hd', hi, hq⟩⟩
  -- the directory becomes free, its tables are lost, and the rest stays
  have huses : ∀ f, f = q ∧ (σ.freeDir i).uses kind d f = FrameKind.free ∨
      (∃ sl, σ.uses kind d f = FrameKind.table d sl ∧ sl / nPteEntry = i ∧
        (σ.freeDir i).uses kind d f = FrameKind.other) ∨
      f ≠ q ∧ (∀ sl, σ.uses kind d f = FrameKind.table d sl → sl / nPteEntry ≠ i) ∧
        (σ.freeDir i).uses kind d f = σ.uses kind d f := by
    intro f
    by_cases hf : f = q
    · left
      obtain ⟨hk, -⟩ := Shape.uses_eq_dir.1 ((hunique f).2 hf)
      exact ⟨hf, by rw [Shape.uses_dir hk, if_pos ⟨rfl, by simp [Shape.freeDir]⟩]⟩
    · right
      by_cases htable : ∃ sl, σ.uses kind d f = FrameKind.table d sl ∧ sl / nPteEntry = i
      · left
        obtain ⟨sl, hsl, hdiv⟩ := htable
        obtain ⟨hk, hmemTables⟩ := Shape.uses_eq_table.1 hsl
        refine ⟨sl, hsl, hdiv, ?_⟩
        rw [Shape.uses_table hk, if_pos ⟨rfl, by simp [Shape.freeDir, hdiv]⟩, if_pos]
        simp [Shape.freeDir, hdiv, hmemTables]
      · right
        refine ⟨hf, fun sl hsl hdiv => htable ⟨sl, hsl, hdiv⟩, ?_⟩
        cases hk : kind f with
        | dir e j =>
            rw [Shape.uses_dir hk, Shape.uses_dir hk]
            have hne : ¬ (e = d ∧ j = i) := by
              rintro ⟨rfl, rfl⟩
              exact hf ((hunique f).1 (Shape.uses_eq_dir.2 ⟨hk, hin⟩))
            have hiff : e = d ∧ j ∉ (σ.freeDir i).dirs ↔ e = d ∧ j ∉ σ.dirs := by
              refine and_congr_right fun he => ?_
              simp [Shape.freeDir, show j ≠ i from fun hc => hne ⟨he, hc⟩]
            simp only [hiff]
        | table e sl =>
            rw [Shape.uses_table hk, Shape.uses_table hk]
            by_cases he : e = d
            · subst he
              by_cases hsl : sl ∈ σ.tables
              · have hdiv : sl / nPteEntry ≠ i := fun hc =>
                  htable ⟨sl, Shape.uses_eq_table.2 ⟨hk, hsl⟩, hc⟩
                simp [Shape.freeDir, hsl, hdiv]
              · simp [Shape.freeDir, hsl]
            · rw [if_neg fun hc => he hc.1, if_neg fun hc => he hc.1]
        | _ => rw [Shape.uses, Shape.uses, hk]
  refine ⟨t', freePage_eq (h.frames.pool q (by simp [hkq])) hnotFree, ?_⟩
  change Exits kind s₀ d (σ.freeDir i) t
  refine ⟨h.env.trans henv, ?_, ?_, ?_, ?_, ?_, ?_, ?_⟩
  · refine h.frames.retire rfl rfl ?_ ?_ ?_ ?_ hmaps ?_ ?_ ?_
    · have hbootNe : s.bootPgdir ≠ d := h.frames.boot_ne (by simp [(h.frames.root d).1 hd'])
      funext k
      rw [hmem, if_neg fun hc => hbootNe hc.1]
    · intro f
      rcases huses f with ⟨rfl, hk⟩ | ⟨sl, hsl, -, hk⟩ | ⟨-, -, hk⟩
      · right
        rw [hkq]
        exact ⟨by simp [FrameKind.IsPage], by simp, Or.inl ⟨hk, Function.update_self _ _ _⟩⟩
      · right
        rw [hsl]
        exact ⟨by simp [FrameKind.IsPage], by simp, Or.inr hk⟩
      · exact Or.inl hk
    · intro f
      change f ∈ insert q s.free ↔ _
      rw [Finset.mem_insert, h.frames.free]
      rcases huses f with ⟨rfl, hk⟩ | ⟨sl, hsl, -, hk⟩ | ⟨hne, -, hk⟩
      · simp [hk]
      · have hne : f ≠ q := by
          rintro rfl
          rw [hkq] at hsl
          cases hsl
        simp [hk, hsl, hne]
      · simp [hk, hne]
    · intro f hf
      refine Function.update_of_ne ?_ _ _
      rintro rfl
      rw [hkq] at hf
      simp [FrameKind.IsPage] at hf
    · intro e
      change e ∈ s.pgdirs ↔ _
      rw [h.frames.root]
      rcases huses e with ⟨rfl, hk⟩ | ⟨sl, hsl, -, hk⟩ | ⟨-, -, hk⟩
      · simp [hk, hkq]
      · simp [hk, hsl]
      · rw [hk]
    · intro g e j
      change _ ↔ e ∈ s.pgdirs ∧ _
      have hnext : e ∈ s.pgdirs ∧ j < userDirs ∧ t.next e j = some g ↔
          σ.uses kind d g = FrameKind.dir e j ∧ ¬ (e = d ∧ j = i) := by
        rw [h.frames.dir, and_assoc, and_assoc]
        refine and_congr_right fun he => and_congr_right fun hj => ?_
        by_cases hc : e = d ∧ j = i
        · rw [hc.1, hprunes.nextNone j hj hc.2]
          simp [hc.2]
        · rw [hprunes.next e he j hj hc]
          simp [hc]
      rw [hnext]
      rcases huses g with ⟨rfl, hk⟩ | ⟨sl, hsl, -, hk⟩ | ⟨hne, -, hk⟩
      · rw [hk, hkq]
        simp only [reduceCtorEq, FrameKind.dir.injEq, false_iff, not_and]
        rintro ⟨rfl, rfl⟩ hc
        exact hc rfl rfl
      · simp [hk, hsl]
      · rw [hk]
        refine ⟨fun hc => ⟨hc, ?_⟩, fun hc => hc.1⟩
        rintro ⟨rfl, rfl⟩
        exact hne ((hunique g).1 hc)
    · intro g e sl
      change _ ↔ e ∈ s.pgdirs ∧ _
      have hpt : e ∈ s.pgdirs ∧ sl < userTables ∧ t.pt e sl = some g ↔
          σ.uses kind d g = FrameKind.table e sl ∧ ¬ (e = d ∧ sl / nPteEntry = i) := by
        rw [h.frames.table, and_assoc, and_assoc]
        refine and_congr_right fun he => and_congr_right fun hsl => ?_
        by_cases hc : e = d ∧ sl / nPteEntry = i
        · rw [hc.1, hprunes.ptNone sl hsl hc.2]
          simp [hc.2]
        · rw [hprunes.pt e he sl hsl hc]
          simp [hc]
      rw [hpt]
      rcases huses g with ⟨rfl, hk⟩ | ⟨sl', hsl', hdiv, hk⟩ | ⟨-, hne, hk⟩
      · simp [hk, hkq]
      · rw [hk, hsl']
        simp only [reduceCtorEq, FrameKind.table.injEq, false_iff, not_and]
        rintro ⟨rfl, rfl⟩ hc
        exact hc rfl hdiv
      · rw [hk]
        refine ⟨fun hc => ⟨hc, ?_⟩, fun hc => hc.1⟩
        rintro ⟨rfl, hdiv⟩
        exact hne sl hc hdiv
  · intro j hj
    by_cases hc : j = i
    · simp [Shape.freeDir, hc, hprunes.nextNone i hi rfl]
    · rw [hprunes.next d hd' j hj fun hc' => hc hc'.2, ← h.dirs j hj]
      simp [Shape.freeDir, hc]
  · intro sl hsl
    by_cases hc : sl / nPteEntry = i
    · simp [Shape.freeDir, hc, hprunes.ptNone sl hsl hc]
    · rw [hprunes.pt d hd' sl hsl fun hc' => hc hc'.2, ← h.tables sl hsl]
      simp [Shape.freeDir, hc]
  · refine Finset.disjoint_union_left.2 ⟨h.lost.mono_right (Finset.filter_subset _ _), ?_⟩
    exact (Finset.disjoint_filter_filter_not _ _ _)
  · intro e he hne w hw
    rw [hprunes.pte e (h.env.pgdirs.symm ▸ he) w hw fun hc => hne hc.1]
    exact h.others e he hne w hw
  · intro w hw
    rw [hprunes.page h.empty hd' hw]
    exact h.empty w hw
  · intro g hg hdir
    rw [← h.mem g hg hdir]
    funext k
    rw [hmem, if_neg fun hc => hg hc.1]

end TriOS
