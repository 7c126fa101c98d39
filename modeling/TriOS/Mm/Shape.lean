import TriOS.Mm.PagingInv

/-!
# Shape — the directories and tables of an address space, by their places

`Shape` is what is left of the level-0 directories and of the page tables while an address space ends.
`exit_range` acts on it as a function. A table in a slot of a directory that has been freed is lost:
nothing points to it any more.
-/

namespace TriOS

/-- The places of the level-0 directories and of the page tables that can be reached, and of the tables
that were in a directory when it was freed. -/
@[ext] structure Shape where
  dirs : Finset Nat
  tables : Finset Nat
  lost : Finset Nat
  deriving DecidableEq

/-- The page tables of some slots are freed. -/
def Shape.freeTables (σ : Shape) (R : Finset Nat) : Shape :=
  { σ with tables := σ.tables \ R }

/-- A level-0 directory is freed, whatever tables it still has. -/
def Shape.freeDir (σ : Shape) (i : Nat) : Shape where
  dirs := σ.dirs.erase i
  tables := σ.tables.filter fun sl => sl / nPteEntry ≠ i
  lost := σ.lost ∪ σ.tables.filter fun sl => sl / nPteEntry = i

/-- A round of the outer loop of `exit_range` over the slots `R` of the directory `i`. -/
def Shape.exitStep (σ : Shape) (i : Nat) (R : Finset Nat) : Shape :=
  if i ∈ σ.dirs then
    if R ⊆ σ.tables then (σ.freeTables R).freeDir i else σ.freeTables R
  else σ

variable {σ : Shape} {R : Finset Nat} {a i sl start stop : Nat}

/-- The slots of a range that belong to the directory `i`. -/
def rangeSlots (start stop i : Nat) : Finset Nat :=
  (Finset.Ico (start / ptSize) ((stop + ptSize - 1) / ptSize)).filter fun sl => sl / nPteEntry = i

/-- `exit_range`: the directories that the range meets, in order. -/
def Shape.exitRange (σ : Shape) (start stop : Nat) : Shape :=
  (List.range userDirs).foldl (fun σ i =>
    if (rangeSlots start stop i).Nonempty then σ.exitStep i (rangeSlots start stop i) else σ) σ

theorem mem_rangeSlots :
    sl ∈ rangeSlots start stop i ↔ start / ptSize ≤ sl ∧ sl * ptSize < stop ∧ sl / nPteEntry = i := by
  unfold rangeSlots ptSize
  rw [Finset.mem_filter, Finset.mem_Ico, and_assoc]
  refine and_congr_right fun _ => and_congr_left fun _ => ?_
  omega

theorem rangeSlots_succ (ha : a / nPteEntry = i) (hlt : a * ptSize < stop) :
    rangeSlots (a * ptSize) stop i = insert a (rangeSlots ((a + 1) * ptSize) stop i) := by
  ext sl
  rw [Finset.mem_insert, mem_rangeSlots, mem_rangeSlots, Nat.mul_div_cancel _ (by decide),
    Nat.mul_div_cancel _ (by decide)]
  constructor
  · rintro ⟨hle, hstop, hdiv⟩
    by_cases hsl : sl = a
    · exact Or.inl hsl
    · exact Or.inr ⟨by omega, hstop, hdiv⟩
  · rintro (rfl | ⟨hle, hstop, hdiv⟩)
    · exact ⟨le_rfl, hlt, ha⟩
    · exact ⟨by omega, hstop, hdiv⟩

theorem rangeSlots_end (h : ¬ (start < (i + 1) * pdSize ∧ start < stop)) (hstart : start % ptSize = 0) :
    rangeSlots start stop i = ∅ := by
  refine Finset.eq_empty_of_forall_notMem fun sl hsl => ?_
  rw [mem_rangeSlots] at hsl
  unfold ptSize nPteEntry pdSize at *
  omega

theorem Shape.freeTables_freeTables {R' : Finset Nat} :
    (σ.freeTables R).freeTables R' = σ.freeTables (R ∪ R') := by
  simp [Shape.freeTables, sdiff_sdiff_left]

theorem Shape.freeTables_of_notMem (h : sl ∉ σ.tables) :
    σ.freeTables (insert sl R) = σ.freeTables R := by
  simp [Shape.freeTables, Finset.sdiff_insert_of_notMem h]

/-- The rounds of the outer loop from the directory `i` on. -/
def Shape.exitRounds (σ : Shape) (start stop i n : Nat) : Shape :=
  (List.range' i n).foldl (fun σ i =>
    if (rangeSlots start stop i).Nonempty then σ.exitStep i (rangeSlots start stop i) else σ) σ

theorem Shape.exitRounds_empty (n : Nat) : ∀ {i : Nat},
    (∀ j, i ≤ j → j < i + n → rangeSlots start stop j = ∅) → σ.exitRounds start stop i n = σ := by
  induction n with
  | zero =>
      intro i _
      rfl
  | succ n ih =>
      intro i h
      have hfirst := h i le_rfl (by omega)
      unfold Shape.exitRounds at *
      rw [List.range'_succ, List.foldl_cons, hfirst, if_neg Finset.not_nonempty_empty]
      exact ih fun j hj hlt => h j (by omega) (by omega)

theorem roundDown_eq (a n : Nat) : roundDown a n = a / n * n := by
  have h := Nat.div_add_mod a n
  rw [Nat.mul_comm] at h
  unfold roundDown
  omega

theorem roundDown_mod (a : Nat) : roundDown a pgSize % pgSize = 0 := by
  rw [roundDown_eq, Nat.mul_mod_left]

theorem Shape.exitRange_eq (hstart : start / pdSize ≤ userDirs) : σ.exitRange start stop =
    σ.exitRounds start stop (start / pdSize) (userDirs - start / pdSize) := by
  have hempty : σ.exitRounds start stop 0 (start / pdSize) = σ := by
    refine Shape.exitRounds_empty _ fun j _ hj => Finset.eq_empty_of_forall_notMem fun sl hsl => ?_
    rw [mem_rangeSlots] at hsl
    unfold ptSize pdSize nPteEntry at *
    omega
  have hsplit : List.range' 0 userDirs =
      List.range' 0 (start / pdSize) ++ List.range' (start / pdSize) (userDirs - start / pdSize) := by
    have happend := List.range'_append_1 (s := 0) (m := start / pdSize) (n := userDirs - start / pdSize)
    rw [Nat.zero_add, Nat.add_sub_cancel' hstart] at happend
    exact happend.symm
  conv_rhs => rw [← hempty]
  unfold Shape.exitRange Shape.exitRounds
  rw [List.range_eq_range', hsplit, List.foldl_append]

/-- The exit of all areas. -/
def Shape.exitAll (σ : Shape) (vmas : List Vma) : Shape :=
  vmas.foldl (fun σ vma => σ.exitRange vma.start vma.stop) σ

/-! ## What a whole exit leaves -/

/-- The slots of an area that belong to the directory `i`. -/
def Vma.slots (vma : Vma) (i : Nat) : Finset Nat :=
  rangeSlots vma.start vma.stop i

/-- `vma` makes `exit_range` free the directory `i`, after the areas `before`: it meets the directory, and
all its slots there have a table and belong to no earlier area. -/
def Closes (T : Finset Nat) (i : Nat) (before : List Vma) (vma : Vma) : Prop :=
  (vma.slots i).Nonempty ∧ vma.slots i ⊆ T ∧ ∀ u ∈ before, Disjoint (u.slots i) (vma.slots i)

/-- Some area closes the directory `i`, and when the first one does, every table of the directory is in a
slot of that area or of an earlier one. -/
def Tidy (T : Finset Nat) (i : Nat) (vmas : List Vma) : Prop :=
  ∃ before vma after, vmas = before ++ vma :: after ∧ Closes T i before vma ∧
    (∀ pre u post, before = pre ++ u :: post → ¬ Closes T i pre u) ∧
    ∀ sl ∈ T, sl / nPteEntry = i → ∃ u ∈ before ++ [vma], sl ∈ u.slots i

variable {T : Finset Nat} {vma u : Vma} {vmas before : List Vma} {τ : Shape} {j : Nat}

theorem Vma.slots_div (h : sl ∈ vma.slots i) : sl / nPteEntry = i :=
  (mem_rangeSlots.1 h).2.2

/-- An area that frees tables without closing the directory can be taken off the list. -/
theorem closes_cons : Closes T i (vma :: before) u ↔ Closes (T \ vma.slots i) i before u := by
  unfold Closes
  rw [Finset.subset_sdiff, List.forall_mem_cons]
  constructor
  · rintro ⟨hne, hsub, hdisj, hbefore⟩
    exact ⟨hne, ⟨hsub, hdisj.symm⟩, hbefore⟩
  · rintro ⟨hne, ⟨hsub, hdisj⟩, hbefore⟩
    exact ⟨hne, hsub, hdisj.symm, hbefore⟩

theorem tidy_nil : ¬ Tidy T i [] := by
  rintro ⟨before, vma, after, hsplit, -⟩
  simp at hsplit

/-- The first area closes the directory. -/
theorem tidy_cons_of_closes (h : Closes T i [] vma) :
    Tidy T i (vma :: vmas) ↔ ∀ sl ∈ T, sl / nPteEntry = i → sl ∈ vma.slots i := by
  constructor
  · rintro ⟨before, v, after, hsplit, -, hfirst, hcover⟩ sl hsl hdiv
    cases before with
    | nil =>
        cases hsplit
        simpa using hcover sl hsl hdiv
    | cons u before =>
        cases hsplit
        exact absurd h (hfirst [] vma before rfl)
  · intro hcover
    refine ⟨[], vma, vmas, rfl, h, fun pre u post hsplit => by simp at hsplit, fun sl hsl hdiv => ?_⟩
    exact ⟨vma, by simp, hcover sl hsl hdiv⟩

/-- The first area does not close the directory. -/
theorem tidy_cons_of_not_closes (h : ¬ Closes T i [] vma) :
    Tidy T i (vma :: vmas) ↔ Tidy (T \ vma.slots i) i vmas := by
  constructor
  · rintro ⟨before, v, after, hsplit, hcloses, hfirst, hcover⟩
    cases before with
    | nil =>
        cases hsplit
        exact absurd hcloses h
    | cons u before =>
        cases hsplit
        refine ⟨before, v, after, rfl, closes_cons.1 hcloses, ?_, ?_⟩
        · intro pre u post hsplit hc
          exact hfirst (vma :: pre) u post (by rw [hsplit]; rfl) (closes_cons.2 hc)
        · intro sl hsl hdiv
          rw [Finset.mem_sdiff] at hsl
          obtain ⟨u, hu, hin⟩ := hcover sl hsl.1 hdiv
          rcases List.mem_cons.1 hu with rfl | hu
          · exact absurd hin hsl.2
          · exact ⟨u, hu, hin⟩
  · rintro ⟨before, v, after, rfl, hcloses, hfirst, hcover⟩
    refine ⟨vma :: before, v, after, rfl, closes_cons.2 hcloses, ?_, ?_⟩
    · intro pre u post hsplit hc
      cases pre with
      | nil =>
          cases hsplit
          exact h hc
      | cons u' pre =>
          cases hsplit
          exact hfirst pre u post rfl (closes_cons.1 hc)
    · intro sl hsl hdiv
      by_cases hin : sl ∈ vma.slots i
      · exact ⟨vma, by simp, hin⟩
      · obtain ⟨u, hu, hin'⟩ := hcover sl (Finset.mem_sdiff.2 ⟨hsl, hin⟩) hdiv
        exact ⟨u, List.mem_cons_of_mem _ hu, hin'⟩

/-- Two shapes agree on the directory `i`. -/
structure Shape.SameAt (i : Nat) (σ τ : Shape) : Prop where
  dirs : i ∈ σ.dirs ↔ i ∈ τ.dirs
  tables : ∀ sl, sl / nPteEntry = i → (sl ∈ σ.tables ↔ sl ∈ τ.tables)
  lost : ∀ sl, sl / nPteEntry = i → (sl ∈ σ.lost ↔ sl ∈ τ.lost)

theorem Shape.SameAt.refl (σ : Shape) : Shape.SameAt i σ σ :=
  ⟨Iff.rfl, fun _ _ => Iff.rfl, fun _ _ => Iff.rfl⟩

theorem Shape.SameAt.trans {ρ : Shape} (h : Shape.SameAt i σ τ) (h' : Shape.SameAt i τ ρ) :
    Shape.SameAt i σ ρ :=
  ⟨h.dirs.trans h'.dirs, fun sl hsl => (h.tables sl hsl).trans (h'.tables sl hsl),
    fun sl hsl => (h.lost sl hsl).trans (h'.lost sl hsl)⟩

theorem Shape.SameAt.symm (h : Shape.SameAt i σ τ) : Shape.SameAt i τ σ :=
  ⟨h.dirs.symm, fun sl hsl => (h.tables sl hsl).symm, fun sl hsl => (h.lost sl hsl).symm⟩

/-- What a round does to its own directory. -/
theorem Shape.exitStep_self (hsl : sl / nPteEntry = i) :
    (i ∈ (σ.exitStep i R).dirs ↔ i ∈ σ.dirs ∧ ¬ R ⊆ σ.tables) ∧
    (sl ∈ (σ.exitStep i R).tables ↔ sl ∈ σ.tables ∧ (i ∈ σ.dirs → ¬ R ⊆ σ.tables ∧ sl ∉ R)) ∧
    (sl ∈ (σ.exitStep i R).lost ↔
      sl ∈ σ.lost ∨ i ∈ σ.dirs ∧ R ⊆ σ.tables ∧ sl ∈ σ.tables ∧ sl ∉ R) := by
  unfold Shape.exitStep
  by_cases hi : i ∈ σ.dirs <;> by_cases hsub : R ⊆ σ.tables <;>
    simp [hi, hsub, Shape.freeTables, Shape.freeDir, hsl]

/-- A round leaves the other directories alone. -/
theorem Shape.exitStep_other (hR : ∀ sl ∈ R, sl / nPteEntry = j) (hne : j ≠ i) :
    Shape.SameAt i (σ.exitStep j R) σ := by
  have hnot : ∀ sl, sl / nPteEntry = i → sl ∉ R := fun sl hsl hc => hne ((hR sl hc).symm.trans hsl)
  unfold Shape.exitStep
  split
  · split
    · refine ⟨?_, fun sl hsl => ?_, fun sl hsl => ?_⟩
      · simp [Shape.freeTables, Shape.freeDir, Ne.symm hne]
      · simp [Shape.freeTables, Shape.freeDir, hnot sl hsl, hsl, Ne.symm hne]
      · simp [Shape.freeTables, Shape.freeDir, hsl, Ne.symm hne]
    · refine ⟨Iff.rfl, fun sl hsl => ?_, fun _ _ => Iff.rfl⟩
      simp [Shape.freeTables, hnot sl hsl]
  · exact Shape.SameAt.refl σ

theorem Shape.SameAt.exitStep (h : Shape.SameAt i σ τ) (hR : ∀ sl ∈ R, sl / nPteEntry = i) :
    Shape.SameAt i (σ.exitStep i R) (τ.exitStep i R) := by
  have hsub : R ⊆ σ.tables ↔ R ⊆ τ.tables :=
    ⟨fun hc sl hsl => (h.tables sl (hR sl hsl)).1 (hc hsl),
      fun hc sl hsl => (h.tables sl (hR sl hsl)).2 (hc hsl)⟩
  have hzero : i * nPteEntry / nPteEntry = i := Nat.mul_div_cancel _ (by decide)
  refine ⟨?_, fun sl hsl => ?_, fun sl hsl => ?_⟩
  · rw [(Shape.exitStep_self hzero).1, (Shape.exitStep_self hzero).1, h.dirs, hsub]
  · rw [(Shape.exitStep_self hsl).2.1, (Shape.exitStep_self hsl).2.1, h.dirs, hsub,
      h.tables sl hsl]
  · rw [(Shape.exitStep_self hsl).2.2, (Shape.exitStep_self hsl).2.2, h.dirs, hsub,
      h.tables sl hsl, h.lost sl hsl]

/-- A round over a range of slots, if it meets the directory. -/
def Shape.exitRound (σ : Shape) (vma : Vma) (i : Nat) : Shape :=
  if (vma.slots i).Nonempty then σ.exitStep i (vma.slots i) else σ

theorem Shape.exitRound_other (hne : j ≠ i) : Shape.SameAt i (σ.exitRound vma j) σ := by
  unfold Shape.exitRound
  split
  · exact Shape.exitStep_other (fun sl hsl => Vma.slots_div hsl) hne
  · exact Shape.SameAt.refl σ

theorem Shape.SameAt.exitRound (h : Shape.SameAt i σ τ) :
    Shape.SameAt i (σ.exitRound vma i) (τ.exitRound vma i) := by
  unfold Shape.exitRound
  split
  · exact h.exitStep fun sl hsl => Vma.slots_div hsl
  · exact h

theorem Shape.exitRange_eq_rounds :
    σ.exitRange vma.start vma.stop = (σ.exitRound vma 0).exitRound vma 1 := by
  have hrange : List.range userDirs = [0, 1] := by decide
  unfold Shape.exitRange Shape.exitRound Vma.slots
  rw [hrange, List.foldl_cons, List.foldl_cons, List.foldl_nil]

/-- `exit_range` acts on each directory by itself. -/
theorem Shape.exitRange_at (σ : Shape) (vma : Vma) (hi : i < userDirs) :
    Shape.SameAt i (σ.exitRange vma.start vma.stop) (σ.exitRound vma i) := by
  rw [Shape.exitRange_eq_rounds]
  have hcases : i = 0 ∨ i = 1 := by
    unfold userDirs at hi
    omega
  rcases hcases with rfl | rfl
  · exact Shape.exitRound_other (by decide)
  · exact (Shape.exitRound_other (by decide)).exitRound

theorem Shape.exitAll_cons : σ.exitAll (vma :: vmas) = (σ.exitRange vma.start vma.stop).exitAll vmas := by
  unfold Shape.exitAll
  rw [List.foldl_cons]

theorem Shape.SameAt.exitAll (hi : i < userDirs) :
    ∀ (vmas : List Vma) {σ τ : Shape}, Shape.SameAt i σ τ → Shape.SameAt i (σ.exitAll vmas) (τ.exitAll vmas)
  | [], _, _, h => h
  | vma :: vmas, σ, τ, h => by
      have hσ := Shape.exitRange_at σ vma hi
      have hτ := Shape.exitRange_at τ vma hi
      have hrest := SameAt.exitAll hi vmas ((hσ.trans h.exitRound).trans hτ.symm)
      rwa [Shape.exitAll_cons, Shape.exitAll_cons]

/-- Nothing of the directory `i` is left, and nothing is lost. -/
structure Shape.Clean (σ : Shape) (i : Nat) : Prop where
  dirs : i ∉ σ.dirs
  tables : ∀ sl ∈ σ.tables, sl / nPteEntry ≠ i
  lost : ∀ sl ∈ σ.lost, sl / nPteEntry ≠ i

theorem Shape.SameAt.clean_iff (h : Shape.SameAt i σ τ) : σ.Clean i ↔ τ.Clean i := by
  have hmp : ∀ {σ τ : Shape}, Shape.SameAt i σ τ → σ.Clean i → τ.Clean i := fun h hclean =>
    ⟨fun hc => hclean.dirs (h.dirs.2 hc), fun sl hsl hdiv => hclean.tables sl ((h.tables sl hdiv).2 hsl) hdiv,
      fun sl hsl hdiv => hclean.lost sl ((h.lost sl hdiv).2 hsl) hdiv⟩
  exact ⟨hmp h, hmp h.symm⟩

theorem Shape.exitAll_gone (hi : i < userDirs) (hgone : i ∉ σ.dirs) :
    ∀ {vmas : List Vma}, Shape.SameAt i (σ.exitAll vmas) σ
  | [] => Shape.SameAt.refl σ
  | vma :: vmas => by
      have hround : Shape.SameAt i (σ.exitRound vma i) σ := by
        unfold Shape.exitRound Shape.exitStep
        rw [if_neg hgone]
        split <;> exact Shape.SameAt.refl σ
      rw [Shape.exitAll_cons]
      exact (Shape.SameAt.exitAll hi _ ((Shape.exitRange_at _ _ hi).trans hround)).trans (exitAll_gone hi hgone)

theorem tidy_congr {T' : Finset Nat} (h : ∀ sl, sl / nPteEntry = i → (sl ∈ T ↔ sl ∈ T')) :
    Tidy T i vmas ↔ Tidy T' i vmas := by
  have hcloses : ∀ before u, Closes T i before u ↔ Closes T' i before u := fun before u =>
    and_congr_right fun _ => and_congr_left fun _ =>
      ⟨fun hc sl hsl => (h sl (Vma.slots_div hsl)).1 (hc hsl),
        fun hc sl hsl => (h sl (Vma.slots_div hsl)).2 (hc hsl)⟩
  unfold Tidy
  refine exists_congr fun before => exists_congr fun vma => exists_congr fun after => and_congr_right fun _ => ?_
  refine and_congr (hcloses _ _) (and_congr (by simp only [hcloses]) (forall_congr' fun sl => ?_))
  exact ⟨fun hc hsl hdiv => hc ((h sl hdiv).2 hsl) hdiv, fun hc hsl hdiv => hc ((h sl hdiv).1 hsl) hdiv⟩

/-- The exit of all areas leaves nothing of a directory exactly when the areas are tidy for its tables. -/
theorem Shape.exitAll_clean_iff (hi : i < userDirs) : ∀ {vmas : List Vma} {σ : Shape}, i ∈ σ.dirs →
    (∀ sl ∈ σ.lost, sl / nPteEntry ≠ i) → ((σ.exitAll vmas).Clean i ↔ Tidy σ.tables i vmas)
  | [], σ, hin, _ => iff_of_false (fun hc => hc.dirs hin) tidy_nil
  | vma :: vmas, σ, hin, hlost => by
      have hat := Shape.exitRange_at σ vma hi
      rw [Shape.exitAll_cons, (hat.exitAll hi vmas).clean_iff]
      by_cases hcloses : Closes σ.tables i [] vma
      · -- the directory goes with this area
        obtain ⟨hne, hsub, -⟩ := hcloses
        have hround : σ.exitRound vma i = σ.exitStep i (vma.slots i) := if_pos hne
        have hgone : i ∉ (σ.exitRound vma i).dirs := by
          have hzero : i * nPteEntry / nPteEntry = i := Nat.mul_div_cancel _ (by decide)
          rw [hround, (Shape.exitStep_self hzero).1]
          exact fun hc => hc.2 hsub
        rw [(Shape.exitAll_gone hi hgone).clean_iff, tidy_cons_of_closes ⟨hne, hsub, by simp⟩, hround]
        constructor
        · intro hclean sl hsl hdiv
          by_contra hnot
          refine hclean.lost sl ?_ hdiv
          exact (Shape.exitStep_self hdiv).2.2.2 (Or.inr ⟨hin, hsub, hsl, hnot⟩)
        · intro hcover
          refine ⟨hround ▸ hgone, fun sl hsl hdiv => ?_, fun sl hsl hdiv => ?_⟩
          · exact (((Shape.exitStep_self hdiv).2.1.1 hsl).2 hin).1 hsub
          · rcases (Shape.exitStep_self hdiv).2.2.1 hsl with hold | ⟨-, -, hin', hnot⟩
            · exact hlost sl hold hdiv
            · exact hnot (hcover sl hin' hdiv)
      · have hnext : ∀ sl, sl / nPteEntry = i →
            (i ∈ (σ.exitRound vma i).dirs) ∧
            (sl ∈ (σ.exitRound vma i).tables ↔ sl ∈ σ.tables \ vma.slots i) ∧
            (sl ∈ (σ.exitRound vma i).lost ↔ sl ∈ σ.lost) := by
          intro sl hdiv
          unfold Shape.exitRound
          by_cases hne : (vma.slots i).Nonempty
          · have hsub : ¬ vma.slots i ⊆ σ.tables := fun hc => hcloses ⟨hne, hc, by simp⟩
            obtain ⟨h1, h2, h3⟩ := @Shape.exitStep_self σ (vma.slots i) _ _ hdiv
            rw [if_pos hne, h1, h2, h3]
            exact ⟨⟨hin, hsub⟩, by simp [hin, hsub], by simp [hsub]⟩
          · rw [if_neg hne, Finset.not_nonempty_iff_eq_empty.1 hne]
            exact ⟨hin, by simp, Iff.rfl⟩
        have hdiv : i * nPteEntry / nPteEntry = i := Nat.mul_div_cancel _ (by decide)
        rw [exitAll_clean_iff hi (hnext _ hdiv).1 fun sl hsl hdiv => hlost sl ((hnext sl hdiv).2.2.1 hsl) hdiv,
          tidy_cons_of_not_closes hcloses]
        exact tidy_congr fun sl hdiv => (hnext sl hdiv).2.1

/-- The shape has places among the directories `D` and the tables `T` only. -/
structure Shape.Within (D T : Finset Nat) (σ : Shape) : Prop where
  dirs : σ.dirs ⊆ D
  tables : σ.tables ⊆ T
  lost : σ.lost ⊆ T

variable {D : Finset Nat}

theorem Shape.Within.exitRound (h : Shape.Within D T σ) : Shape.Within D T (σ.exitRound vma i) := by
  have htables : (σ.freeTables (vma.slots i)).tables ⊆ T := Finset.sdiff_subset.trans h.tables
  have hdir : Shape.Within D T ((σ.freeTables (vma.slots i)).freeDir i) :=
    ⟨(Finset.erase_subset _ _).trans h.dirs, (Finset.filter_subset _ _).trans htables,
      Finset.union_subset h.lost ((Finset.filter_subset _ _).trans htables)⟩
  unfold Shape.exitRound Shape.exitStep
  split
  · split
    · split
      · exact hdir
      · exact ⟨h.dirs, htables, h.lost⟩
    · exact h
  · exact h

theorem Shape.Within.exitAll : ∀ {vmas : List Vma} {σ : Shape}, Shape.Within D T σ →
    Shape.Within D T (σ.exitAll vmas)
  | [], _, h => h
  | vma :: vmas, σ, h => by
      rw [Shape.exitAll_cons, Shape.exitRange_eq_rounds]
      exact Within.exitAll h.exitRound.exitRound

end TriOS
