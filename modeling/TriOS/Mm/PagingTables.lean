import TriOS.Mm.PagingInv

/-!
# PagingTables — tables that get_pte adds, and entries that page_insert writes
-/

namespace TriOS

open Outcome

variable {kind kind' : Nat → FrameKind} {s t : Vm} {d d' f g p i j v w sl sl' la : Nat} {x : Pte}

/-! ## New tables -/

/-- What `get_pte` does with a free page that becomes the table of entry `i` of the directory `f`. -/
def Vm.newTable (s : Vm) (page f i : Nat) : Vm :=
  let s := { s with free := s.free.erase page }
  ((s.setPageRef page 1).setPage page fun _ => 0).setWord f i (tableEntry page)

theorem newTable_mem {page : Nat} (hne : f ≠ page) (g k : Nat) :
    (s.newTable page f i).mem g k =
      if g = f ∧ k = i then tableEntry page else if g = page then 0 else s.mem g k := by
  change (Vm.setWord _ f i _).mem g k = _
  rw [setWord_mem]
  refine if_congr Iff.rfl rfl ?_
  change Function.update s.mem page (fun _ => 0) g k = _
  by_cases hg : g = page
  · subst hg
    simp
  · simp [hg]

/-- A free page has become a table: what the new entry does not concern stays. -/
theorem Frames.addTable {page : Nat} {k : FrameKind} (h : Frames kind s) (henv : s.SameEnv t)
    (hpage : page ∈ s.free) (hk : (∃ d i, k = FrameKind.dir d i) ∨ ∃ d sl, k = FrameKind.table d sl)
    (hfree : t.free = s.free.erase page) (href : ∀ g, g ≠ page → t.ref g = s.ref g)
    (hpte : ∀ e ∈ s.pgdirs, ∀ w < userPages, t.pte e w = s.pte e w)
    (hboot : ∀ i < userDirs, t.mem s.bootPgdir i = s.mem s.bootPgdir i)
    (hdir : ∀ p e i, e ∈ s.pgdirs → i < userDirs →
      (t.next e i = some p ↔ if p = page then k = FrameKind.dir e i else s.next e i = some p))
    (htable : ∀ p e sl, e ∈ s.pgdirs → sl < userTables →
      (t.pt e sl = some p ↔ if p = page then k = FrameKind.table e sl else s.pt e sl = some p))
    (hkd : ∀ d i, k = FrameKind.dir d i → d ∈ s.pgdirs ∧ i < userDirs)
    (hkt : ∀ d sl, k = FrameKind.table d sl → d ∈ s.pgdirs ∧ sl < userTables) :
    Frames (Function.update kind page k) t := by
  have hwas : kind page = FrameKind.free := (h.free page).1 hpage
  have hkind : ∀ k', (∀ d i, k' ≠ FrameKind.dir d i) → (∀ d sl, k' ≠ FrameKind.table d sl) →
      ∀ f, Function.update kind page k f = k' ↔ f ≠ page ∧ kind f = k' := by
    intro k' h1 h2 f
    by_cases hf : f = page
    · subst hf
      rw [Function.update_self]
      rcases hk with ⟨d, i, rfl⟩ | ⟨d, sl, rfl⟩
      · simpa using (h1 d i).symm
      · simpa using (h2 d sl).symm
    · simp [hf]
  have hpages : ∀ e w, e ∈ s.pgdirs → w < userPages → t.page e w = s.page e w := fun e w he hw => by
    rw [Vm.page, hpte e he w hw, Vm.page]
  have hmaps : ∀ f, t.maps f = s.maps f := by
    intro f
    ext ⟨e, w⟩
    rw [mem_maps, mem_maps, henv.pgdirs]
    exact and_congr_right fun he => and_congr_right fun hw => by rw [hpages e w he hw]
  refine ⟨?_, ?_, ?_, ?_, ?_, ?_, ?_, ?_, ?_, ?_⟩
  · intro f hf
    rw [henv.pmm]
    by_cases hfp : f = page
    · subst hfp
      exact h.pool f (by simp [hwas])
    · rw [Function.update_of_ne hfp] at hf
      exact h.pool f hf
  · intro f
    rw [hfree, Finset.mem_erase, h.free, hkind _ (by simp) (by simp)]
  · intro d
    rw [henv.pgdirs, hkind _ (by simp) (by simp), h.root]
    refine ⟨fun hd => ⟨?_, hd⟩, fun hd => hd.2⟩
    rintro rfl
    rw [hwas] at hd
    cases hd
  · intro p e i
    rw [henv.pgdirs]
    by_cases hp : p = page
    · subst hp
      rw [Function.update_self]
      constructor
      · intro hc
        obtain ⟨he, hi⟩ := hkd e i hc
        exact ⟨he, hi, (hdir p e i he hi).2 (by rwa [if_pos rfl])⟩
      · rintro ⟨he, hi, hc⟩
        have := (hdir p e i he hi).1 hc
        rwa [if_pos rfl] at this
    · rw [Function.update_of_ne hp, h.dir]
      refine and_congr_right fun he => and_congr_right fun hi => ?_
      rw [hdir p e i he hi, if_neg hp]
  · intro p e sl
    rw [henv.pgdirs]
    by_cases hp : p = page
    · subst hp
      rw [Function.update_self]
      constructor
      · intro hc
        obtain ⟨he, hsl⟩ := hkt e sl hc
        exact ⟨he, hsl, (htable p e sl he hsl).2 (by rwa [if_pos rfl])⟩
      · rintro ⟨he, hsl, hc⟩
        have := (htable p e sl he hsl).1 hc
        rwa [if_pos rfl] at this
    · rw [Function.update_of_ne hp, h.table]
      refine and_congr_right fun he => and_congr_right fun hsl => ?_
      rw [htable p e sl he hsl, if_neg hp]
  · intro d v f hd hv hf
    rw [henv.pgdirs] at hd
    rw [hpages d v hd hv] at hf
    have hdata := h.data d v f hd hv hf
    refine (hkind _ (by simp) (by simp) f).2 ⟨?_, hdata⟩
    rintro rfl
    rw [hwas] at hdata
    cases hdata
  · intro f hf
    obtain ⟨hne, hdata⟩ := (hkind _ (by simp) (by simp) f).1 hf
    rw [href f hne, hmaps]
    exact h.ref f hdata
  · intro f hf
    rw [hkind _ (by simp) (by simp), hkind _ (by simp) (by simp), ← and_or_left] at hf
    rw [href f hf.1]
    exact h.unref f hf.2
  · rw [henv.bootPgdir, hkind _ (by simp) (by simp)]
    exact ⟨h.boot_ne (by simp [hwas]), h.boot.1⟩
  · intro i hi
    rw [henv.bootPgdir, hboot i hi]
    exact h.boot.2 i hi

/-- The permissions of the entries of directories. -/
theorem frame_tableEntry {page : Nat} (h : page < npage) : Pte.frame (tableEntry page) = some page :=
  frame_pteCreate h { bits := pteU ||| pteV, flags := by decide }

theorem Frames.free_ne_root (h : Frames kind s) (hf : f ∈ s.free) (hd : d ∈ s.pgdirs) : d ≠ f := by
  rintro rfl
  have h1 := (h.free d).1 hf
  rw [(h.root d).1 hd] at h1
  cases h1

theorem Frames.free_ne_dir (h : Frames kind s) (hf : f ∈ s.free) (hd : d ∈ s.pgdirs) (hi : i < userDirs)
    (hp : s.next d i = some p) : p ≠ f := by
  rintro rfl
  have h1 := (h.free p).1 hf
  rw [(h.dir p d i).2 ⟨hd, hi, hp⟩] at h1
  cases h1

theorem Frames.free_ne_table (h : Frames kind s) (hf : f ∈ s.free) (hd : d ∈ s.pgdirs)
    (hsl : sl < userTables) (hp : s.pt d sl = some p) : p ≠ f := by
  rintro rfl
  have h1 := (h.free p).1 hf
  rw [(h.table p d sl).2 ⟨hd, hsl, hp⟩] at h1
  cases h1

theorem Frames.root_ne_dir (h : Frames kind s) (he : g ∈ s.pgdirs) (hd : d ∈ s.pgdirs)
    (hi : i < userDirs) (hp : s.next d i = some p) : g ≠ p := by
  rintro rfl
  have h1 := (h.root g).1 he
  rw [(h.dir g d i).2 ⟨hd, hi, hp⟩] at h1
  cases h1

theorem Frames.root_ne_table (h : Frames kind s) (he : g ∈ s.pgdirs) (hd : d ∈ s.pgdirs)
    (hsl : sl < userTables) (hp : s.pt d sl = some p) : g ≠ p := by
  rintro rfl
  have h1 := (h.root g).1 he
  rw [(h.table g d sl).2 ⟨hd, hsl, hp⟩] at h1
  cases h1

theorem Frames.dir_ne_table {q : Nat} (h : Frames kind s) (hd : d ∈ s.pgdirs) (hi : i < userDirs)
    (hp : s.next d i = some p) (he : g ∈ s.pgdirs) (hsl : sl < userTables) (hq : s.pt g sl = some q) :
    p ≠ q := by
  rintro rfl
  have h1 := (h.dir p d i).2 ⟨hd, hi, hp⟩
  rw [(h.table p g sl).2 ⟨he, hsl, hq⟩] at h1
  cases h1

/-- A directory belongs to one place. -/
theorem Frames.dir_inj (h : Frames kind s) (hd : d ∈ s.pgdirs) (hi : i < userDirs)
    (hp : s.next d i = some p) (he : g ∈ s.pgdirs) (hj : j < userDirs) (hq : s.next g j = some p) :
    d = g ∧ i = j := by
  have h1 := (h.dir p d i).2 ⟨hd, hi, hp⟩
  rw [(h.dir p g j).2 ⟨he, hj, hq⟩] at h1
  injection h1 with h2 h3
  exact ⟨h2.symm, h3.symm⟩

/-- A new level-0 directory. -/
structure AddsDir (s t : Vm) (d i page : Nat) : Prop where
  next : ∀ e ∈ s.pgdirs, ∀ j < userDirs, t.next e j = if e = d ∧ j = i then some page else s.next e j
  pt : ∀ e ∈ s.pgdirs, ∀ sl < userTables, t.pt e sl = s.pt e sl
  pte : ∀ e ∈ s.pgdirs, ∀ w < userPages, t.pte e w = s.pte e w

theorem Frames.newDir_adds {page : Nat} (h : Frames kind s) (hd : d ∈ s.pgdirs)
    (hnone : s.next d i = none) (hpage : page ∈ s.free) : AddsDir s (s.newTable page d i) d i page := by
  have hlt : page < npage := h.lt_npage (by simp [(h.free page).1 hpage])
  have hmem := fun g k => newTable_mem (s := s) (i := i) (h.free_ne_root hpage hd) g k
  have hnext : ∀ e ∈ s.pgdirs, ∀ j < userDirs,
      (s.newTable page d i).next e j = if e = d ∧ j = i then some page else s.next e j := by
    intro e he j _
    rw [Vm.next, hmem, if_neg (h.free_ne_root hpage he), Vm.next]
    split
    · exact frame_tableEntry hlt
    · rfl
  have hpt : ∀ e ∈ s.pgdirs, ∀ sl < userTables, (s.newTable page d i).pt e sl = s.pt e sl := by
    intro e he sl hsl
    rw [Vm.pt, hnext e he _ (div_lt_userDirs hsl), Vm.pt]
    split
    · next hc =>
        rw [hc.1, hc.2, hnone]
        change Vm.next _ page _ = none
        rw [Vm.next, hmem, if_neg fun hc' => h.free_ne_root hpage hd hc'.1.symm, if_pos rfl]
        exact Pte.frame_zero
    · cases hq : s.next e (sl / nPteEntry) with
      | none => rfl
      | some q =>
          have hq1 := h.root_ne_dir hd he (div_lt_userDirs hsl) hq
          have hq2 := h.free_ne_dir hpage he (div_lt_userDirs hsl) hq
          simp only [Option.bind_some, Vm.next, hmem, if_neg hq2, if_neg fun hc : q = d ∧ _ => hq1 hc.1.symm]
  refine ⟨hnext, hpt, fun e he w hw => ?_⟩
  rw [Vm.pte, hpt e he _ (div_lt_userTables hw), Vm.pte]
  cases hq : s.pt e (w / nPteEntry) with
  | none => rfl
  | some q =>
      have hq1 := h.root_ne_table hd he (div_lt_userTables hw) hq
      have hq2 := h.free_ne_table hpage he (div_lt_userTables hw) hq
      simp only [hmem, if_neg hq2, if_neg fun hc : q = d ∧ _ => hq1 hc.1.symm]

theorem newTable_env {page : Nat} : s.SameEnv (s.newTable page f i) := ⟨rfl, rfl, rfl, rfl, rfl, rfl, rfl⟩

theorem newTable_ref {page : Nat} (h : g ≠ page) : (s.newTable page f i).ref g = s.ref g :=
  Function.update_of_ne h _ _

theorem Frames.newTable_boot {page : Nat} (h : Frames kind s) (hf : kind f ≠ FrameKind.other)
    (hne : f ≠ page) (hpage : page ∈ s.free) (j : Nat) :
    (s.newTable page f i).mem s.bootPgdir j = s.mem s.bootPgdir j := by
  rw [newTable_mem hne, if_neg fun hc => h.boot_ne hf hc.1,
    if_neg (h.boot_ne (by simp [(h.free page).1 hpage]))]

theorem Frames.newDir {page : Nat} (h : Frames kind s) (hd : d ∈ s.pgdirs) (hi : i < userDirs)
    (hnone : s.next d i = none) (hpage : page ∈ s.free) :
    Frames (Function.update kind page (FrameKind.dir d i)) (s.newTable page d i) := by
  have hadds := h.newDir_adds hd hnone hpage
  refine h.addTable newTable_env hpage (Or.inl ⟨d, i, rfl⟩) rfl (fun g hg => newTable_ref hg) hadds.pte
    (fun j _ => h.newTable_boot (by simp [(h.root d).1 hd]) (h.free_ne_root hpage hd) hpage j) ?_ ?_ ?_ ?_
  · intro p e j he hj
    rw [hadds.next e he j hj]
    by_cases hp : p = page
    · subst hp
      rw [if_pos rfl]
      split
      · next hc => simp [hc.1, hc.2]
      · next hc =>
          refine ⟨fun hq => absurd rfl (h.free_ne_dir hpage he hj hq), fun hq => ?_⟩
          injection hq with h1 h2
          exact absurd ⟨h1.symm, h2.symm⟩ hc
    · rw [if_neg hp]
      split
      · next hc => simp [hc.1, hc.2, hnone, Ne.symm hp]
      · rfl
  · intro p e sl he hsl
    rw [hadds.pt e he sl hsl]
    by_cases hp : p = page
    · subst hp
      rw [if_pos rfl]
      exact ⟨fun hq => absurd rfl (h.free_ne_table hpage he hsl hq), fun hq => by cases hq⟩
    · rw [if_neg hp]
  · intro e j hc
    injection hc with h1 h2
    subst h1 h2
    exact ⟨hd, hi⟩
  · intro e sl hc
    cases hc

/-- A new page table. -/
structure AddsTable (s t : Vm) (d sl page : Nat) : Prop where
  next : ∀ e ∈ s.pgdirs, ∀ j < userDirs, t.next e j = s.next e j
  pt : ∀ e ∈ s.pgdirs, ∀ sl' < userTables, t.pt e sl' = if e = d ∧ sl' = sl then some page else s.pt e sl'
  pte : ∀ e ∈ s.pgdirs, ∀ w < userPages, t.pte e w = s.pte e w

theorem Frames.newTable_adds {page q : Nat} (h : Frames kind s) (hd : d ∈ s.pgdirs)
    (hsl : sl < userTables) (hq : s.next d (sl / nPteEntry) = some q)
    (hnone : s.next q (sl % nPteEntry) = none) (hpage : page ∈ s.free) :
    AddsTable s (s.newTable page q (sl % nPteEntry)) d sl page := by
  have hi := div_lt_userDirs hsl
  have hlt : page < npage := h.lt_npage (by simp [(h.free page).1 hpage])
  have hmem := fun g k =>
    newTable_mem (s := s) (i := sl % nPteEntry) (h.free_ne_dir hpage hd hi hq) g k
  have hptNone : s.pt d sl = none := by rw [Vm.pt, hq]; exact hnone
  have hnext : ∀ e ∈ s.pgdirs, ∀ j < userDirs,
      (s.newTable page q (sl % nPteEntry)).next e j = s.next e j := by
    intro e he j _
    rw [Vm.next, hmem, if_neg (h.free_ne_root hpage he),
      if_neg fun hc => h.root_ne_dir he hd hi hq hc.1, Vm.next]
  have hpt : ∀ e ∈ s.pgdirs, ∀ sl' < userTables, (s.newTable page q (sl % nPteEntry)).pt e sl' =
      if e = d ∧ sl' = sl then some page else s.pt e sl' := by
    intro e he sl' hsl'
    have hi' := div_lt_userDirs hsl'
    rw [Vm.pt, hnext e he _ hi', Vm.pt]
    cases hq' : s.next e (sl' / nPteEntry) with
    | none =>
        rw [if_neg]
        · rfl
        · rintro ⟨rfl, rfl⟩
          rw [hq] at hq'
          cases hq'
    | some q' =>
        simp only [Option.bind_some, Vm.next, hmem, if_neg (h.free_ne_dir hpage he hi' hq')]
        by_cases hc : q' = q ∧ sl' % nPteEntry = sl % nPteEntry
        · obtain ⟨rfl, hindex⟩ := hc
          obtain ⟨rfl, hdiv⟩ := h.dir_inj he hi' hq' hd hi hq
          have hsame : sl' = sl := by
            have h1 := Nat.div_add_mod sl' nPteEntry
            have h2 := Nat.div_add_mod sl nPteEntry
            rw [hindex, hdiv] at h1
            exact h1.symm.trans h2
          rw [if_pos ⟨rfl, hindex⟩, if_pos ⟨rfl, hsame⟩]
          exact frame_tableEntry hlt
        · rw [if_neg hc, if_neg]
          rintro ⟨rfl, rfl⟩
          rw [hq] at hq'
          cases hq'
          exact hc ⟨rfl, rfl⟩
  refine ⟨hnext, hpt, fun e he w hw => ?_⟩
  by_cases hc : e = d ∧ w / nPteEntry = sl
  · obtain ⟨rfl, rfl⟩ := hc
    have hself := hpt e he _ hsl
    rw [if_pos ⟨rfl, rfl⟩] at hself
    rw [Vm.pte_of_pt hself, Vm.pte_of_none hptNone, hmem,
      if_neg fun hc => h.free_ne_dir hpage hd hi hq hc.1.symm, if_pos rfl]
  · have hother := hpt e he _ (div_lt_userTables hw)
    rw [if_neg hc] at hother
    cases hq' : s.pt e (w / nPteEntry) with
    | none => rw [Vm.pte_of_none (hother.trans hq'), Vm.pte_of_none hq']
    | some q' =>
        have hne := h.free_ne_table hpage he (div_lt_userTables hw) hq'
        have hne' := h.dir_ne_table hd hi hq he (div_lt_userTables hw) hq'
        rw [Vm.pte_of_pt (hother.trans hq'), Vm.pte_of_pt hq', hmem, if_neg fun hc => hne' hc.1.symm,
          if_neg hne]

theorem Frames.newTable {page q : Nat} (h : Frames kind s) (hd : d ∈ s.pgdirs) (hsl : sl < userTables)
    (hq : s.next d (sl / nPteEntry) = some q) (hnone : s.next q (sl % nPteEntry) = none)
    (hpage : page ∈ s.free) : Frames (Function.update kind page (FrameKind.table d sl))
      (s.newTable page q (sl % nPteEntry)) := by
  have hi := div_lt_userDirs hsl
  have hadds := h.newTable_adds hd hsl hq hnone hpage
  have hptNone : s.pt d sl = none := by rw [Vm.pt, hq]; exact hnone
  refine h.addTable newTable_env hpage (Or.inr ⟨d, sl, rfl⟩) rfl (fun g hg => newTable_ref hg) hadds.pte
    (fun j _ => h.newTable_boot (by simp [(h.dir q d _).2 ⟨hd, hi, hq⟩])
      (h.free_ne_dir hpage hd hi hq) hpage j) ?_ ?_ ?_ ?_
  · intro p e j he hj
    rw [hadds.next e he j hj]
    by_cases hp : p = page
    · subst hp
      rw [if_pos rfl]
      exact ⟨fun hc => absurd rfl (h.free_ne_dir hpage he hj hc), fun hc => by cases hc⟩
    · rw [if_neg hp]
  · intro p e sl' he hsl'
    rw [hadds.pt e he sl' hsl']
    by_cases hp : p = page
    · subst hp
      rw [if_pos rfl]
      split
      · next hc => simp [hc.1, hc.2]
      · next hc =>
          refine ⟨fun hp => absurd rfl (h.free_ne_table hpage he hsl' hp), fun hp => ?_⟩
          injection hp with h1 h2
          exact absurd ⟨h1.symm, h2.symm⟩ hc
    · rw [if_neg hp]
      split
      · next hc => simp [hc.1, hc.2, hptNone, Ne.symm hp]
      · rfl
  · intro e j hc
    cases hc
  · intro e sl' hc
    injection hc with h1 h2
    subst h1 h2
    exact ⟨hd, hsl⟩

/-! ## get_pte with create -/

theorem allocPage_some {page : Nat} (h : s.pmm.pick s.free = some page) :
    allocPage s = done (some page, { s with free := s.free.erase page }) := by
  rw [allocPage, h]

theorem allocPage_none (h : s.pmm.pick s.free = none) :
    allocPage s = if s.swapInitOk then panic else done (none, s) := by
  rw [allocPage, h]

theorem ensureTable_new {page : Nat} (h : s.next f i = none) (hpick : s.pmm.pick s.free = some page) :
    ensureTable s f i true = done (true, s.newTable page f i) := by
  unfold ensureTable
  rw [if_neg (Pte.frame_eq_none.1 h), if_pos rfl, allocPage_some hpick]
  rfl

theorem ensureTable_fail (h : s.next f i = none) (hpick : s.pmm.pick s.free = none) :
    ensureTable s f i true = if s.swapInitOk then panic else done (false, s) := by
  unfold ensureTable
  rw [if_neg (Pte.frame_eq_none.1 h), if_pos rfl, allocPage_none hpick]
  split <;> rfl

/-- Only tables have been added, and they were free pages. -/
structure Grows (kind kind' : Nat → FrameKind) (s t : Vm) (d sl : Nat) : Prop where
  env : s.SameEnv t
  frames : Frames kind' t
  pte : ∀ e ∈ s.pgdirs, ∀ w < userPages, t.pte e w = s.pte e w
  uses : ∀ f, kind' f = kind f ∨ kind f = FrameKind.free ∧
    (kind' f = FrameKind.dir d (sl / nPteEntry) ∨ kind' f = FrameKind.table d sl)
  mem : ∀ g, kind g = FrameKind.data ∨ kind g = FrameKind.held ∨ kind g = FrameKind.other →
    t.mem g = s.mem g
  ref : ∀ g, kind g ≠ FrameKind.free → t.ref g = s.ref g

theorem Grows.refl (h : Frames kind s) (d sl : Nat) : Grows kind kind s s d sl :=
  ⟨Vm.SameEnv.refl s, h, fun _ _ _ _ => rfl, fun _ => Or.inl rfl, fun _ _ => rfl, fun _ _ => rfl⟩

theorem Grows.trans {kind'' : Nat → FrameKind} {u : Vm} (h : Grows kind kind' s t d sl)
    (h' : Grows kind' kind'' t u d sl) : Grows kind kind'' s u d sl := by
  refine ⟨h.env.trans h'.env, h'.frames, ?_, ?_, ?_, ?_⟩
  · intro e he w hw
    exact (h'.pte e (h.env.pgdirs ▸ he) w hw).trans (h.pte e he w hw)
  · intro f
    rcases h.uses f with heq | ⟨hfree, hnew⟩
    · rcases h'.uses f with heq' | ⟨hfree', hnew'⟩
      · exact Or.inl (heq'.trans heq)
      · exact Or.inr ⟨heq ▸ hfree', hnew'⟩
    · rcases h'.uses f with heq' | ⟨hfree', -⟩
      · rw [heq']
        exact Or.inr ⟨hfree, hnew⟩
      · rcases hnew with hnew | hnew <;> rw [hnew] at hfree' <;> cases hfree'
  · intro g hg
    have hsame : kind' g = kind g := by
      rcases h.uses g with heq | ⟨hfree, -⟩
      · exact heq
      · rcases hg with hg | hg | hg <;> rw [hg] at hfree <;> cases hfree
    exact (h'.mem g (hsame ▸ hg)).trans (h.mem g hg)
  · intro g hg
    have hsame : kind' g = kind g := by
      rcases h.uses g with heq | ⟨hfree, -⟩
      · exact heq
      · exact absurd hfree hg
    exact (h'.ref g (hsame ▸ hg)).trans (h.ref g hg)

theorem Frames.newTable_mem_of {page : Nat} (h : Frames kind s) (hne : f ≠ page) (hpage : page ∈ s.free)
    (hf : kind f ≠ FrameKind.data ∧ kind f ≠ FrameKind.held ∧ kind f ≠ FrameKind.other)
    (hg : kind g = FrameKind.data ∨ kind g = FrameKind.held ∨ kind g = FrameKind.other) :
    (s.newTable page f i).mem g = s.mem g := by
  have hgf : g ≠ f := by
    rintro rfl
    rcases hg with hg | hg | hg
    · exact hf.1 hg
    · exact hf.2.1 hg
    · exact hf.2.2 hg
  have hgp : g ≠ page := by
    rintro rfl
    rw [(h.free g).1 hpage] at hg
    simp at hg
  funext k
  rw [newTable_mem hne, if_neg fun hc => hgf hc.1, if_neg hgp]

theorem Frames.ne_of_ne_free {page : Nat} (h : Frames kind s) (hpage : page ∈ s.free)
    (hg : kind g ≠ FrameKind.free) : g ≠ page := by
  rintro rfl
  exact hg ((h.free g).1 hpage)

theorem Frames.newDir_grows {page : Nat} (h : Frames kind s) (hd : d ∈ s.pgdirs)
    (hsl : sl < userTables) (hnone : s.next d (sl / nPteEntry) = none) (hpage : page ∈ s.free) :
    Grows kind (Function.update kind page (FrameKind.dir d (sl / nPteEntry))) s
      (s.newTable page d (sl / nPteEntry)) d sl := by
  refine ⟨newTable_env, h.newDir hd (div_lt_userDirs hsl) hnone hpage,
    (h.newDir_adds hd hnone hpage).pte, ?_, ?_, ?_⟩
  · intro f
    by_cases hf : f = page
    · subst hf
      exact Or.inr ⟨(h.free f).1 hpage, Or.inl (Function.update_self _ _ _)⟩
    · exact Or.inl (Function.update_of_ne hf _ _)
  · intro g hg
    exact h.newTable_mem_of (h.free_ne_root hpage hd) hpage (by simp [(h.root d).1 hd]) hg
  · intro g hg
    exact newTable_ref (h.ne_of_ne_free hpage hg)

theorem Frames.newTable_grows {page q : Nat} (h : Frames kind s) (hd : d ∈ s.pgdirs)
    (hsl : sl < userTables) (hq : s.next d (sl / nPteEntry) = some q)
    (hnone : s.next q (sl % nPteEntry) = none) (hpage : page ∈ s.free) :
    Grows kind (Function.update kind page (FrameKind.table d sl)) s
      (s.newTable page q (sl % nPteEntry)) d sl := by
  have hi := div_lt_userDirs hsl
  refine ⟨newTable_env, h.newTable hd hsl hq hnone hpage, (h.newTable_adds hd hsl hq hnone hpage).pte,
    ?_, ?_, ?_⟩
  · intro f
    by_cases hf : f = page
    · subst hf
      exact Or.inr ⟨(h.free f).1 hpage, Or.inr (Function.update_self _ _ _)⟩
    · exact Or.inl (Function.update_of_ne hf _ _)
  · intro g hg
    exact h.newTable_mem_of (h.free_ne_dir hpage hd hi hq) hpage
      (by simp [(h.dir q d _).2 ⟨hd, hi, hq⟩]) hg
  · intro g hg
    exact newTable_ref (h.ne_of_ne_free hpage hg)

/-- `get_pte` of an address that has a level-0 directory but no table. -/
theorem getPte_newTable {q : Nat} (h : Frames kind s) (hd : d ∈ s.pgdirs) (hla : la < userTop)
    (hq : s.next d (la / ptSize / nPteEntry) = some q)
    (hnone : s.next q (la / ptSize % nPteEntry) = none) :
    getPte s d la true = match s.pmm.pick s.free with
      | some page => done (some (page, la / pgSize % nPteEntry),
          s.newTable page q (la / ptSize % nPteEntry))
      | none => if s.swapInitOk then panic else done (none, s) := by
  have hsl := div_lt_tables hla
  unfold getPte
  rw [pdx1_eq hla, pdx0_eq, ensureTable_of_next hq, bind_done]
  simp only [pde2page_eq hq (h.dir_lt hd (div_lt_userDirs hsl) hq), bind_done]
  cases hpick : s.pmm.pick s.free with
  | none =>
      rw [ensureTable_fail hnone hpick]
      dsimp only
      split <;> rfl
  | some page =>
      have hpage := s.pmm.pick_mem _ _ hpick
      have hlt : page < npage := h.lt_npage (by simp [(h.free page).1 hpage])
      have hentry : (s.newTable page q (la / ptSize % nPteEntry)).next q (la / ptSize % nPteEntry) =
          some page := by
        rw [Vm.next, newTable_mem (h.free_ne_dir hpage hd (div_lt_userDirs hsl) hq), if_pos ⟨rfl, rfl⟩]
        exact frame_tableEntry hlt
      simp only [ensureTable_new hnone hpick, bind_done, pde2page_eq hentry hlt, ptx_eq]
      rfl

/-- `get_pte` of an address that has no level-0 directory. -/
theorem getPte_newDir (h : Frames kind s) (hd : d ∈ s.pgdirs) (hla : la < userTop)
    (hnone : s.next d (la / ptSize / nPteEntry) = none) :
    getPte s d la true = match s.pmm.pick s.free with
      | some page => getPte (s.newTable page d (la / ptSize / nPteEntry)) d la true
      | none => if s.swapInitOk then panic else done (none, s) := by
  have hsl := div_lt_tables hla
  cases hpick : s.pmm.pick s.free with
  | none =>
      unfold getPte
      rw [pdx1_eq hla, ensureTable_fail hnone hpick]
      dsimp only
      split <;> rfl
  | some page =>
      have hpage := s.pmm.pick_mem _ _ hpick
      have hadds := h.newDir_adds hd hnone hpage
      have hentry := hadds.next d hd _ (div_lt_userDirs hsl)
      rw [if_pos ⟨rfl, rfl⟩] at hentry
      unfold getPte
      rw [pdx1_eq hla, ensureTable_new hnone hpick]
      dsimp only
      rw [ensureTable_of_next hentry]

/-- What `get_pte` may do to add the tables of an address. -/
theorem getPte_grows (h : Frames kind s) (hd : d ∈ s.pgdirs) (hla : la < userTop) :
    Safe (getPte s d la true) fun r => ∃ kind', Grows kind kind' s r.2 d (la / ptSize) ∧
      ∀ m, r.1 = some m →
        kind' m.1 = FrameKind.table d (la / ptSize) ∧ m.2 = la / pgSize % nPteEntry := by
  have hsl := div_lt_tables hla
  -- first for an address that has a level-0 directory
  have hdir : ∀ {kind : Nat → FrameKind} {s : Vm} {q : Nat}, Frames kind s → d ∈ s.pgdirs →
      s.next d (la / ptSize / nPteEntry) = some q →
      Safe (getPte s d la true) fun r => ∃ kind', Grows kind kind' s r.2 d (la / ptSize) ∧
        ∀ m, r.1 = some m →
          kind' m.1 = FrameKind.table d (la / ptSize) ∧ m.2 = la / pgSize % nPteEntry := by
    intro kind s q h hd hq
    cases hp : s.next q (la / ptSize % nPteEntry) with
    | some p =>
        have hpt : s.pt d (la / ptSize) = some p := by rw [Vm.pt, hq]; exact hp
        refine Safe.of_eq (getPte_of_pt h hd hla hpt) ⟨kind, Grows.refl h _ _, ?_⟩
        rintro m hm
        cases hm
        exact ⟨(h.table p d _).2 ⟨hd, hsl, hpt⟩, rfl⟩
    | none =>
        rw [getPte_newTable h hd hla hq hp]
        cases hpick : s.pmm.pick s.free with
        | none =>
            dsimp only
            split
            · trivial
            · exact ⟨kind, Grows.refl h _ _, fun m hm => by cases hm⟩
        | some page =>
            refine ⟨_, h.newTable_grows hd hsl hq hp (s.pmm.pick_mem _ _ hpick), ?_⟩
            rintro m hm
            cases hm
            exact ⟨Function.update_self _ _ _, rfl⟩
  cases hq : s.next d (la / ptSize / nPteEntry) with
  | some q => exact hdir h hd hq
  | none =>
      rw [getPte_newDir h hd hla hq]
      cases hpick : s.pmm.pick s.free with
      | none =>
          dsimp only
          split
          · trivial
          · exact ⟨kind, Grows.refl h _ _, fun m hm => by cases hm⟩
      | some page =>
          have hpage := s.pmm.pick_mem _ _ hpick
          have hgrows := h.newDir_grows hd hsl hq hpage
          have hentry := (h.newDir_adds hd hq hpage).next d hd _ (div_lt_userDirs hsl)
          rw [if_pos ⟨rfl, rfl⟩] at hentry
          refine (hdir hgrows.frames hd hentry).mono fun r hr => ?_
          obtain ⟨kind', hgrows', hr⟩ := hr
          exact ⟨kind', hgrows.trans hgrows', hr⟩

end TriOS
