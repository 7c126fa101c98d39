import TriOS.Mm.Paging

/-!
# PagingInv — what the page frames are used for

`next`, `pt` and `pte` walk the page tables as pure functions of the memory. `Frames kind s` says that
every frame has one use: it is free, a page directory, a level-0 directory or a page table of one place,
or a page of data whose `ref` counts the entries that map it. A write to an entry of one table therefore
changes the walk at one address only.
-/

namespace TriOS

open Outcome

/-- The number of user pages, of user page tables and of user level-0 directories. -/
def userPages : Nat := 0x80000

/-- The number of page tables of the user addresses. -/
def userTables : Nat := 1024

/-- The number of level-0 directories of the user addresses. -/
def userDirs : Nat := 2

/-! ## The walk -/

/-- The frame that an entry points to. -/
def Pte.frame (pte : Pte) : Option Nat :=
  if pte.Valid then some (ptePpn pte) else none

/-- The level-0 directory of a gigabyte. -/
def Vm.next (s : Vm) (f i : Nat) : Option Nat :=
  (s.mem f i).frame

/-- The page table of a slot of 2 MB. -/
def Vm.pt (s : Vm) (d sl : Nat) : Option Nat :=
  (s.next d (sl / nPteEntry)).bind fun p => s.next p (sl % nPteEntry)

/-- The entry of a page; 0 when there is no table. -/
def Vm.pte (s : Vm) (d v : Nat) : Pte :=
  match s.pt d (v / nPteEntry) with
  | some p => s.mem p (v % nPteEntry)
  | none => 0

/-- The frame that a page is mapped to. -/
def Vm.page (s : Vm) (d v : Nat) : Option Nat :=
  (s.pte d v).frame

/-- The entries that map a frame. -/
def Vm.maps (s : Vm) (f : Nat) : Finset (Nat × Nat) :=
  (s.pgdirs ×ˢ Finset.range userPages).filter fun x => s.page x.1 x.2 = some f

/-- What a frame is used for. A page that has been allocated and is not mapped yet is `held`; pages of the
kernel, and tables that nothing points to any more, are `other`. -/
inductive FrameKind where
  | free
  | root
  | dir (d i : Nat)
  | table (d sl : Nat)
  | data
  | held
  | other
  deriving DecidableEq

/-- Every frame has the use that `kind` says. -/
structure Frames (kind : Nat → FrameKind) (s : Vm) : Prop where
  pool : ∀ f, kind f ≠ FrameKind.other → f ∈ s.pmm.pool
  free : ∀ f, f ∈ s.free ↔ kind f = FrameKind.free
  root : ∀ d, d ∈ s.pgdirs ↔ kind d = FrameKind.root
  dir : ∀ p d i, kind p = FrameKind.dir d i ↔ d ∈ s.pgdirs ∧ i < userDirs ∧ s.next d i = some p
  table : ∀ p d sl, kind p = FrameKind.table d sl ↔
    d ∈ s.pgdirs ∧ sl < userTables ∧ s.pt d sl = some p
  data : ∀ d v f, d ∈ s.pgdirs → v < userPages → s.page d v = some f → kind f = FrameKind.data
  ref : ∀ f, kind f = FrameKind.data → s.ref f = (s.maps f).card ∧ (s.maps f).Nonempty
  unref : ∀ f, kind f = FrameKind.free ∨ kind f = FrameKind.held → s.ref f = 0
  boot : kind s.bootPgdir = FrameKind.other ∧ ∀ i < userDirs, ¬ (s.mem s.bootPgdir i).Valid

variable {kind kind' : Nat → FrameKind} {s t : Vm} {d d' f g p i j v w sl sl' la : Nat} {x : Pte}

theorem Pte.frame_eq_some {pte : Pte} : pte.frame = some f ↔ pte.Valid ∧ ptePpn pte = f := by
  unfold Pte.frame
  split <;> simp [*]

theorem Pte.frame_eq_none {pte : Pte} : pte.frame = none ↔ ¬ pte.Valid := by
  unfold Pte.frame
  split <;> simp [*]

@[simp] theorem Pte.frame_zero : Pte.frame 0 = none :=
  Pte.frame_eq_none.2 not_valid_zero

theorem frame_pteCreate (h : f < npage) (perm : Perm) :
    Pte.frame (pteCreate f perm.bits) = some f :=
  Pte.frame_eq_some.2 ⟨valid_pteCreate _ _,
    ptePpn_pteCreate (h.trans (by decide)) perm⟩

theorem mem_maps {m : Nat × Nat} :
    m ∈ s.maps f ↔ m.1 ∈ s.pgdirs ∧ m.2 < userPages ∧ s.page m.1 m.2 = some f := by
  simp [Vm.maps, and_assoc]

theorem Frames.lt_npage (h : Frames kind s) (hf : kind f ≠ FrameKind.other) : f < npage :=
  s.pmm.pool_lt f (h.pool f hf)

theorem Frames.data_iff (h : Frames kind s) : kind f = FrameKind.data ↔ (s.maps f).Nonempty := by
  refine ⟨fun hf => (h.ref f hf).2, ?_⟩
  rintro ⟨m, hm⟩
  obtain ⟨hd, hv, hpage⟩ := mem_maps.1 hm
  exact h.data _ _ f hd hv hpage

/-! ## Where the walk looks -/

theorem setWord_mem (g k : Nat) :
    (s.setWord f i x).mem g k = if g = f ∧ k = i then x else s.mem g k := by
  unfold Vm.setWord
  by_cases hg : g = f
  · subst hg
    by_cases hk : k = i
    · subst hk
      simp
    · simp [hk]
  · simp [hg]

theorem setPage_mem_of_ne {words : Nat → UInt64} (h : g ≠ f) : (s.setPage f words).mem g = s.mem g :=
  Function.update_of_ne h _ _

theorem setPage_mem_self {words : Nat → UInt64} : (s.setPage f words).mem f = words :=
  Function.update_self _ _ _

/-- The walks of the user part of the address spaces agree. -/
structure SameWalk (s t : Vm) : Prop where
  next : ∀ d ∈ s.pgdirs, ∀ i < userDirs, t.next d i = s.next d i
  pt : ∀ d ∈ s.pgdirs, ∀ sl < userTables, t.pt d sl = s.pt d sl
  pte : ∀ d ∈ s.pgdirs, ∀ v < userPages, t.pte d v = s.pte d v

theorem div_lt_userDirs (h : sl < userTables) : sl / nPteEntry < userDirs := by
  unfold userTables at h
  unfold nPteEntry userDirs
  omega

theorem div_lt_userTables (h : v < userPages) : v / nPteEntry < userTables := by
  unfold userPages at h
  unfold nPteEntry userTables
  omega

/-- A frame that is no directory and no table can be written at will. -/
theorem Frames.sameWalk (h : Frames kind s) (hmem : ∀ g, g ≠ f → t.mem g = s.mem g)
    (hroot : kind f ≠ FrameKind.root) (hdir : ∀ d i, kind f ≠ FrameKind.dir d i)
    (htable : ∀ d sl, kind f ≠ FrameKind.table d sl) : SameWalk s t := by
  have hnext : ∀ d ∈ s.pgdirs, ∀ i < userDirs, t.next d i = s.next d i := by
    intro d hd i _
    have hne : d ≠ f := by
      rintro rfl
      exact hroot ((h.root d).1 hd)
    rw [Vm.next, hmem d hne, Vm.next]
  have hpt : ∀ d ∈ s.pgdirs, ∀ sl < userTables, t.pt d sl = s.pt d sl := by
    intro d hd sl hsl
    rw [Vm.pt, hnext d hd _ (div_lt_userDirs hsl), Vm.pt]
    cases hp : s.next d (sl / nPteEntry) with
    | none => rfl
    | some p =>
        have hne : p ≠ f := by
          rintro rfl
          exact hdir d _ ((h.dir p d _).2 ⟨hd, div_lt_userDirs hsl, hp⟩)
        simp only [Option.bind_some, Vm.next, hmem p hne]
  refine ⟨hnext, hpt, fun d hd v hv => ?_⟩
  rw [Vm.pte, hpt d hd _ (div_lt_userTables hv), Vm.pte]
  cases hp : s.pt d (v / nPteEntry) with
  | none => rfl
  | some p =>
      have hne : p ≠ f := by
        rintro rfl
        exact htable d _ ((h.table p d _).2 ⟨hd, div_lt_userTables hv, hp⟩)
      simp only [hmem p hne]

/-- A write to an entry of a page table changes the entry of one page. -/
structure SetsEntry (s t : Vm) (d v : Nat) (x : Pte) : Prop where
  next : ∀ e ∈ s.pgdirs, ∀ i < userDirs, t.next e i = s.next e i
  pt : ∀ e ∈ s.pgdirs, ∀ sl < userTables, t.pt e sl = s.pt e sl
  pte : ∀ e ∈ s.pgdirs, ∀ w < userPages, t.pte e w = if e = d ∧ w = v then x else s.pte e w

theorem Frames.setsEntry (h : Frames kind s) (hp : kind p = FrameKind.table d (v / nPteEntry))
    (hmem : ∀ g k, t.mem g k = if g = p ∧ k = v % nPteEntry then x else s.mem g k) :
    SetsEntry s t d v x := by
  obtain ⟨hd, -, hpt⟩ := (h.table p d _).1 hp
  have hsame : ∀ g, g ≠ p → t.mem g = s.mem g := by
    intro g hg
    funext k
    rw [hmem, if_neg fun hc => hg hc.1]
  have hnext : ∀ e ∈ s.pgdirs, ∀ i < userDirs, t.next e i = s.next e i := by
    intro e he i _
    have hne : e ≠ p := by
      rintro rfl
      rw [(h.root e).1 he] at hp
      cases hp
    rw [Vm.next, hsame e hne, Vm.next]
  have hpts : ∀ e ∈ s.pgdirs, ∀ sl < userTables, t.pt e sl = s.pt e sl := by
    intro e he sl hsl
    rw [Vm.pt, hnext e he _ (div_lt_userDirs hsl), Vm.pt]
    cases hq : s.next e (sl / nPteEntry) with
    | none => rfl
    | some q =>
        have hne : q ≠ p := by
          rintro rfl
          rw [(h.dir q e _).2 ⟨he, div_lt_userDirs hsl, hq⟩] at hp
          cases hp
        simp only [Option.bind_some, Vm.next, hsame q hne]
  refine ⟨hnext, hpts, fun e he w hw => ?_⟩
  rw [Vm.pte, hpts e he _ (div_lt_userTables hw), Vm.pte]
  cases hq : s.pt e (w / nPteEntry) with
  | none =>
      rw [if_neg]
      rintro ⟨rfl, rfl⟩
      rw [hpt] at hq
      cases hq
  | some q =>
      simp only [hmem]
      -- the word belongs to the page exactly when the frame and the index do
      refine if_congr ⟨?_, ?_⟩ rfl rfl
      · rintro ⟨rfl, hindex⟩
        have hkind := (h.table q e _).2 ⟨he, div_lt_userTables hw, hq⟩
        rw [hp] at hkind
        injection hkind with hde hdiv
        refine ⟨hde.symm, ?_⟩
        have h1 := Nat.div_add_mod w nPteEntry
        have h2 := Nat.div_add_mod v nPteEntry
        rw [hindex, ← hdiv] at h1
        exact h1.symm.trans h2
      · rintro ⟨rfl, rfl⟩
        rw [hpt] at hq
        cases hq
        exact ⟨rfl, rfl⟩

theorem SetsEntry.page (h : SetsEntry s t d v x) {e : Nat} (he : e ∈ s.pgdirs) (hw : w < userPages) :
    t.page e w = if e = d ∧ w = v then x.frame else s.page e w := by
  rw [Vm.page, h.pte e he w hw, Vm.page]
  split <;> rfl

/-- The entries that map a frame, after a write to one entry. -/
theorem SetsEntry.maps (h : SetsEntry s t d v x) (hpgdirs : t.pgdirs = s.pgdirs) (hd : d ∈ s.pgdirs)
    (hv : v < userPages) (f : Nat) :
    t.maps f = if x.frame = some f then insert (d, v) (s.maps f) else (s.maps f).erase (d, v) := by
  ext ⟨e, w⟩
  have hmem : (e, w) ∈ t.maps f ↔ e ∈ s.pgdirs ∧ w < userPages ∧ t.page e w = some f := by
    rw [mem_maps, hpgdirs]
  rw [hmem]
  by_cases hdv : e = d ∧ w = v
  · obtain ⟨rfl, rfl⟩ := hdv
    rw [h.page hd hv, if_pos ⟨rfl, rfl⟩]
    split
    · next hx => simp [hx, hd, hv]
    · next hx => simp [hx]
  · have hne : (e, w) ≠ (d, v) := fun hc => hdv (Prod.mk.inj hc)
    have hpage : e ∈ s.pgdirs ∧ w < userPages ∧ t.page e w = some f ↔ (e, w) ∈ s.maps f := by
      rw [mem_maps]
      refine and_congr_right fun he => and_congr_right fun hw => ?_
      rw [h.page he hw, if_neg hdv]
    rw [hpage]
    split
    · simp [hne]
    · simp [hne]

/-! ## Keeping the frames apart -/

/-- A page of data, or one that may become one. -/
def FrameKind.IsPage (k : FrameKind) : Prop :=
  k = FrameKind.free ∨ k = FrameKind.held ∨ k = FrameKind.data

/-- Everything but the frames and their use. -/
structure Vm.SameEnv (s t : Vm) : Prop where
  pmm : t.pmm = s.pmm
  swapInitOk : t.swapInitOk = s.swapInitOk
  maxSwapOffset : t.maxSwapOffset = s.maxSwapOffset
  swap : t.swap = s.swap
  bootPgdir : t.bootPgdir = s.bootPgdir
  pgdirs : t.pgdirs = s.pgdirs
  mmap : t.mmap = s.mmap

theorem Vm.SameEnv.refl (s : Vm) : s.SameEnv s := ⟨rfl, rfl, rfl, rfl, rfl, rfl, rfl⟩

theorem Vm.SameEnv.trans {u : Vm} (h : s.SameEnv t) (h' : t.SameEnv u) : s.SameEnv u :=
  ⟨h'.pmm.trans h.pmm, h'.swapInitOk.trans h.swapInitOk, h'.maxSwapOffset.trans h.maxSwapOffset,
    h'.swap.trans h.swap, h'.bootPgdir.trans h.bootPgdir, h'.pgdirs.trans h.pgdirs,
    h'.mmap.trans h.mmap⟩

/-- A step after which the directories and tables are where they were. -/
theorem Frames.of_walk (h : Frames kind s) (henv : s.SameEnv t)
    (hnext : ∀ e ∈ s.pgdirs, ∀ i < userDirs, t.next e i = s.next e i)
    (hpt : ∀ e ∈ s.pgdirs, ∀ sl < userTables, t.pt e sl = s.pt e sl)
    (hboot : ∀ i < userDirs, t.mem s.bootPgdir i = s.mem s.bootPgdir i)
    (hkind : ∀ f, kind' f = kind f ∨ (kind f).IsPage ∧ (kind' f).IsPage)
    (hfree : ∀ f, f ∈ t.free ↔ kind' f = FrameKind.free)
    (hdata : ∀ d v f, d ∈ s.pgdirs → v < userPages → t.page d v = some f → kind' f = FrameKind.data)
    (href : ∀ f, kind' f = FrameKind.data → t.ref f = (t.maps f).card ∧ (t.maps f).Nonempty)
    (hunref : ∀ f, kind' f = FrameKind.free ∨ kind' f = FrameKind.held → t.ref f = 0) :
    Frames kind' t := by
  have hother : ∀ f k, ¬ k.IsPage → (kind' f = k ↔ kind f = k) := by
    intro f k hk
    rcases hkind f with heq | ⟨hpage, hpage'⟩
    · rw [heq]
    · exact ⟨fun hc => absurd (hc ▸ hpage') hk, fun hc => absurd (hc ▸ hpage) hk⟩
  have hroot : ¬ FrameKind.root.IsPage := by simp [FrameKind.IsPage]
  have hdirs : ∀ d i, ¬ (FrameKind.dir d i).IsPage := fun d i => by simp [FrameKind.IsPage]
  have htables : ∀ d sl, ¬ (FrameKind.table d sl).IsPage := fun d sl => by simp [FrameKind.IsPage]
  have hothers : ¬ FrameKind.other.IsPage := by simp [FrameKind.IsPage]
  refine ⟨?_, hfree, ?_, ?_, ?_, ?_, href, hunref, ?_, ?_⟩
  · intro f hf
    rw [henv.pmm]
    exact h.pool f fun hc => hf ((hother f _ hothers).2 hc)
  · intro d
    rw [henv.pgdirs, hother d _ hroot]
    exact h.root d
  · intro p d i
    rw [henv.pgdirs, hother p _ (hdirs d i), h.dir]
    exact and_congr_right fun hd => and_congr_right fun hi => by rw [hnext d hd i hi]
  · intro p d sl
    rw [henv.pgdirs, hother p _ (htables d sl), h.table]
    exact and_congr_right fun hd => and_congr_right fun hsl => by rw [hpt d hd sl hsl]
  · intro d v f hd
    rw [henv.pgdirs] at hd
    exact hdata d v f hd
  · rw [henv.bootPgdir]
    exact (hother _ _ hothers).2 h.boot.1
  · intro i hi
    rw [henv.bootPgdir, hboot i hi]
    exact h.boot.2 i hi

/-- `ref` counts the entries of every page. -/
theorem Frames.ref_eq (h : Frames kind s) (hf : (kind f).IsPage) : s.ref f = (s.maps f).card := by
  have hempty : kind f ≠ FrameKind.data → s.maps f = ∅ := fun hne =>
    Finset.not_nonempty_iff_eq_empty.1 fun hc => hne (h.data_iff.2 hc)
  rcases hf with hf | hf | hf
  · rw [h.unref f (Or.inl hf), hempty (by simp [hf])]
    rfl
  · rw [h.unref f (Or.inr hf), hempty (by simp [hf])]
    rfl
  · exact (h.ref f hf).1

/-- The use of the frames after a change of one entry, which maps `new` now. -/
def rekind (kind : Nat → FrameKind) (t : Vm) (new : Option Nat) (f : Nat) : FrameKind :=
  if new = some f then FrameKind.data
  else if kind f = FrameKind.data ∧ t.maps f = ∅ then FrameKind.free
  else kind f

/-- What happens to a frame when one entry is changed: the counts follow the entries, and the page that
was mapped is freed when nothing maps it any more. -/
theorem Frames.entryChange (h : Frames kind s) (henv : s.SameEnv t) (hd : d ∈ s.pgdirs)
    (hv : v < userPages) (hset : SetsEntry s t d v x)
    (hboot : ∀ i < userDirs, t.mem s.bootPgdir i = s.mem s.bootPgdir i)
    (hnew : ∀ f, x.frame = some f → kind f = FrameKind.data ∨ kind f = FrameKind.held)
    (href : ∀ f, t.ref f =
      s.ref f + (if x.frame = some f then 1 else 0) - if s.page d v = some f then 1 else 0)
    (hfree : ∀ f, f ∈ t.free ↔ f ∈ s.free ∨ s.page d v = some f ∧ t.maps f = ∅) :
    Frames (rekind kind t x.frame) t := by
  have hmaps := fun f => hset.maps henv.pgdirs hd hv f
  have hold : ∀ f, s.page d v = some f ↔ (d, v) ∈ s.maps f := fun f => by
    rw [mem_maps]
    exact ⟨fun hc => ⟨hd, hv, hc⟩, fun hc => hc.2.2⟩
  have holdKind : ∀ f, s.page d v = some f → kind f = FrameKind.data := fun f => h.data d v f hd hv
  -- the number of entries that map a page changes as its count does
  have hcard : ∀ f, (kind f).IsPage → t.ref f = (t.maps f).card := by
    intro f hf
    rw [href, h.ref_eq hf, hmaps]
    by_cases hx : x.frame = some f <;> by_cases hp : (d, v) ∈ s.maps f
    · rw [if_pos hx, if_pos hx, if_pos ((hold f).2 hp), Finset.insert_eq_of_mem hp]
      omega
    · rw [if_pos hx, if_pos hx, if_neg fun hc => hp ((hold f).1 hc), Finset.card_insert_of_notMem hp]
      push_cast
      omega
    · have hpos : 0 < (s.maps f).card := Finset.card_pos.2 ⟨_, hp⟩
      rw [if_neg hx, if_neg hx, if_pos ((hold f).2 hp), Finset.card_erase_of_mem hp]
      omega
    · rw [if_neg hx, if_neg hx, if_neg fun hc => hp ((hold f).1 hc), Finset.erase_eq_of_notMem hp]
      omega
  have hmono : ∀ f, x.frame ≠ some f → t.maps f ⊆ s.maps f := by
    intro f hx
    rw [hmaps, if_neg hx]
    exact Finset.erase_subset _ _
  have hpage : ∀ f, kind f = FrameKind.data → (kind f).IsPage := fun f hf => Or.inr (Or.inr hf)
  refine h.of_walk henv hset.next hset.pt hboot ?_ ?_ ?_ ?_ ?_
  · intro f
    unfold rekind
    split
    · next hx =>
        right
        rcases hnew f hx with hf | hf <;> simp [FrameKind.IsPage, hf]
    · split
      · next hc =>
          right
          simp [FrameKind.IsPage, hc.1]
      · exact Or.inl rfl
  · intro f
    rw [hfree, h.free]
    unfold rekind
    by_cases hx : x.frame = some f
    · have hmem : (d, v) ∈ t.maps f := by
        rw [hmaps, if_pos hx]
        exact Finset.mem_insert_self _ _
      have hne : t.maps f ≠ ∅ := Finset.nonempty_iff_ne_empty.1 ⟨_, hmem⟩
      rcases hnew f hx with hf | hf <;> simp [hx, hf, hne]
    · rw [if_neg hx]
      by_cases hf : kind f = FrameKind.data
      · rw [hf]
        by_cases hempty : t.maps f = ∅
        · -- the last entry that mapped the page was the one that has been changed
          have hin : s.page d v = some f := by
            rw [hold]
            by_contra hc
            have hsame : t.maps f = s.maps f := by
              rw [hmaps, if_neg hx, Finset.erase_eq_of_notMem hc]
            exact Finset.nonempty_iff_ne_empty.1 (h.ref f hf).2 (hsame.symm.trans hempty)
          simp [hempty, hin]
        · simp [hempty]
      · rw [if_neg fun hc => hf hc.1]
        exact ⟨fun hc => hc.elim id fun hp => absurd (holdKind f hp.1) hf, Or.inl⟩
  · intro e w f he hw hpagef
    rw [hset.page he hw] at hpagef
    unfold rekind
    split at hpagef
    · rw [if_pos hpagef]
    · next hdv =>
        split
        · rfl
        · have hkind := h.data e w f he hw hpagef
          have hmem : (e, w) ∈ t.maps f := by
            rw [mem_maps, henv.pgdirs]
            exact ⟨he, hw, by rw [hset.page he hw, if_neg hdv, hpagef]⟩
          rw [if_neg fun hc => Finset.nonempty_iff_ne_empty.1 ⟨_, hmem⟩ hc.2]
          exact hkind
  · intro f hf
    unfold rekind at hf
    split at hf
    · next hx =>
        have hin : (kind f).IsPage := by
          rcases hnew f hx with hk | hk <;> simp [FrameKind.IsPage, hk]
        refine ⟨hcard f hin, (d, v), ?_⟩
        rw [hmaps, if_pos hx]
        exact Finset.mem_insert_self _ _
    · split at hf
      · cases hf
      · next hc =>
          exact ⟨hcard f (hpage f hf), Finset.nonempty_iff_ne_empty.2 fun he => hc ⟨hf, he⟩⟩
  · intro f hf
    unfold rekind at hf
    split at hf
    · simp at hf
    · next hx =>
        split at hf
        · next hc =>
            rw [hcard f (hpage f hc.1), hc.2]
            rfl
        · have hin : (kind f).IsPage := by
            rcases hf with hk | hk <;> simp [FrameKind.IsPage, hk]
          have hempty : s.maps f = ∅ := by
            have hzero := h.unref f hf
            have hcount := h.ref_eq hin
            exact Finset.card_eq_zero.1 (by omega)
          have hempty' : t.maps f = ∅ := Finset.subset_empty.1 (hempty ▸ hmono f hx)
          rw [hcard f hin, hempty']
          rfl

/-! ## Addresses -/

theorem pdx1_eq (h : la < userTop) : pdx1 la = la / ptSize / nPteEntry := by
  unfold userTop at h
  unfold pdx1 pdSize ptSize nPteEntry
  omega

theorem pdx0_eq (la : Nat) : pdx0 la = la / ptSize % nPteEntry := rfl

theorem ptx_eq (la : Nat) : ptx la = la / pgSize % nPteEntry := rfl

theorem div_ptSize (la : Nat) : la / pgSize / nPteEntry = la / ptSize := by
  unfold pgSize nPteEntry ptSize
  omega

theorem div_lt_tables (h : la < userTop) : la / ptSize < userTables := by
  unfold userTop at h
  unfold ptSize userTables
  omega

theorem div_lt_pages (h : la < userTop) : la / pgSize < userPages := by
  unfold userTop at h
  unfold pgSize userPages
  omega

/-! ## get_pte -/

theorem pde2page_eq {pte : Pte} (hf : pte.frame = some f) (hlt : f < npage) : pde2page pte = done f := by
  obtain ⟨-, rfl⟩ := Pte.frame_eq_some.1 hf
  simp [pde2page, hlt]

theorem pte2page_eq {pte : Pte} (hf : pte.frame = some f) (hlt : f < npage) : pte2page pte = done f := by
  unfold pte2page
  rw [assert_of (Pte.frame_eq_some.1 hf).1, bind_done, pde2page_eq hf hlt]

theorem Frames.dir_lt (h : Frames kind s) (hd : d ∈ s.pgdirs) (hi : i < userDirs)
    (hp : s.next d i = some p) : p < npage :=
  h.lt_npage (by rw [(h.dir p d i).2 ⟨hd, hi, hp⟩]; simp)

theorem Frames.table_lt (h : Frames kind s) (hd : d ∈ s.pgdirs) (hsl : sl < userTables)
    (hp : s.pt d sl = some p) : p < npage :=
  h.lt_npage (by rw [(h.table p d sl).2 ⟨hd, hsl, hp⟩]; simp)

theorem Vm.pt_eq_some (hpt : s.pt d sl = some p) :
    ∃ q, s.next d (sl / nPteEntry) = some q ∧ s.next q (sl % nPteEntry) = some p :=
  Option.bind_eq_some_iff.1 hpt

theorem ensureTable_of_next {create : Bool} (h : s.next f i = some p) :
    ensureTable s f i create = done (true, s) := by
  unfold ensureTable
  rw [if_pos (Pte.frame_eq_some.1 h).1]
  rfl

theorem ensureTable_false (h : s.next f i = none) : ensureTable s f i false = done (false, s) := by
  unfold ensureTable
  rw [if_neg (Pte.frame_eq_none.1 h), if_neg (by simp)]
  rfl

/-- `get_pte` of an address whose table exists. -/
theorem getPte_of_pt {create : Bool} (h : Frames kind s) (hd : d ∈ s.pgdirs) (hla : la < userTop)
    (hpt : s.pt d (la / ptSize) = some p) :
    getPte s d la create = done (some (p, la / pgSize % nPteEntry), s) := by
  have hsl := div_lt_tables hla
  obtain ⟨q, hq, hp⟩ := Vm.pt_eq_some hpt
  unfold getPte
  rw [pdx1_eq hla, pdx0_eq, ensureTable_of_next hq, bind_done]
  simp only [pde2page_eq hq (h.dir_lt hd (div_lt_userDirs hsl) hq), bind_done, ensureTable_of_next hp,
    pde2page_eq hp (h.table_lt hd hsl hpt), ptx_eq]
  rfl

/-- `get_pte` without `create` finds an entry exactly when its table exists. -/
theorem getPte_false (h : Frames kind s) (hd : d ∈ s.pgdirs) (hla : la < userTop) :
    getPte s d la false =
      done ((s.pt d (la / ptSize)).map fun p => (p, la / pgSize % nPteEntry), s) := by
  have hsl := div_lt_tables hla
  cases hpt : s.pt d (la / ptSize) with
  | some p => exact getPte_of_pt h hd hla hpt
  | none =>
      unfold getPte
      rw [pdx1_eq hla, pdx0_eq]
      cases hq : s.next d (la / ptSize / nPteEntry) with
      | none =>
          rw [ensureTable_false hq]
          rfl
      | some q =>
          have hp : s.next q (la / ptSize % nPteEntry) = none := by
            rw [Vm.pt, hq] at hpt
            exact hpt
          rw [ensureTable_of_next hq, bind_done]
          simp only [pde2page_eq hq (h.dir_lt hd (div_lt_userDirs hsl) hq), bind_done,
            ensureTable_false hp]
          rfl

theorem Vm.pte_of_pt (hpt : s.pt d (v / nPteEntry) = some p) : s.pte d v = s.mem p (v % nPteEntry) := by
  rw [Vm.pte, hpt]

theorem Vm.pte_of_none (hpt : s.pt d (v / nPteEntry) = none) : s.pte d v = 0 := by
  rw [Vm.pte, hpt]

/-! ## page_remove_pte -/

/-- `t` is `s` after valid entries of `d` have been cleared, among them those of all the pages `P`. -/
structure Unmaps (kind : Nat → FrameKind) (s t : Vm) (d : Nat) (P : Nat → Prop) : Prop where
  env : s.SameEnv t
  frames : Frames (rekind kind t none) t
  next : ∀ e ∈ s.pgdirs, ∀ i < userDirs, t.next e i = s.next e i
  pt : ∀ e ∈ s.pgdirs, ∀ sl < userTables, t.pt e sl = s.pt e sl
  cleared : ∀ w < userPages, P w → ¬ (t.pte d w).Valid
  kept : ∀ e ∈ s.pgdirs, ∀ w < userPages, ¬ (e = d ∧ P w) → t.pte e w = s.pte e w
  only : ∀ w < userPages, t.pte d w = s.pte d w ∨ t.pte d w = 0
  mem : ∀ g, (∀ sl, kind g ≠ FrameKind.table d sl) → t.mem g = s.mem g

theorem Frames.rekind_self (h : Frames kind s) : rekind kind s none = kind := by
  funext f
  unfold rekind
  rw [if_neg (by simp), if_neg]
  rintro ⟨hf, hempty⟩
  exact Finset.nonempty_iff_ne_empty.1 (h.ref f hf).2 hempty

theorem Unmaps.refl (h : Frames kind s) (d : Nat) (P : Nat → Prop)
    (hP : ∀ w < userPages, P w → ¬ (s.pte d w).Valid) : Unmaps kind s s d P :=
  ⟨Vm.SameEnv.refl s, h.rekind_self.symm ▸ h, fun _ _ _ _ => rfl, fun _ _ _ _ => rfl, hP,
    fun _ _ _ _ _ => rfl, fun _ _ => Or.inl rfl, fun _ _ => rfl⟩

theorem Unmaps.maps_subset {P : Nat → Prop} (h : Unmaps kind s t d P) (f : Nat) :
    t.maps f ⊆ s.maps f := by
  rintro ⟨e, w⟩ hm
  obtain ⟨he, hw, hpage⟩ := mem_maps.1 hm
  rw [h.env.pgdirs] at he
  have hpte : t.pte e w = s.pte e w := by
    by_cases hed : e = d
    · subst hed
      rcases h.only w hw with heq | hzero
      · exact heq
      · rw [Vm.page, hzero, Pte.frame_zero] at hpage
        cases hpage
    · exact h.kept e he w hw fun hc => hed hc.1
  exact mem_maps.2 ⟨he, hw, by rw [Vm.page, ← hpte]; exact hpage⟩

/-- Clearing goes on where it was left. -/
theorem Unmaps.trans {u : Vm} {P Q : Nat → Prop} (h : Unmaps kind s t d P)
    (h' : Unmaps (rekind kind t none) t u d Q) : Unmaps kind s u d fun w => P w ∨ Q w := by
  have hrekind : rekind (rekind kind t none) u none = rekind kind u none := by
    funext f
    unfold rekind
    simp only [if_neg (show ¬ (none = some f) by simp)]
    by_cases hf : kind f = FrameKind.data
    · by_cases hempty : t.maps f = ∅
      · have hempty' : u.maps f = ∅ := Finset.subset_empty.1 (hempty ▸ h'.maps_subset f)
        simp [hf, hempty, hempty']
      · simp [hf, hempty]
    · simp [hf]
  have hpgdirs := h.env.pgdirs
  refine ⟨h.env.trans h'.env, hrekind ▸ h'.frames, ?_, ?_, ?_, ?_, ?_, ?_⟩
  · intro e he i hi
    exact (h'.next e (hpgdirs ▸ he) i hi).trans (h.next e he i hi)
  · intro e he sl hsl
    exact (h'.pt e (hpgdirs ▸ he) sl hsl).trans (h.pt e he sl hsl)
  · rintro w hw (hP | hQ)
    · rcases h'.only w hw with heq | hzero
      · rw [heq]
        exact h.cleared w hw hP
      · rw [hzero]
        exact not_valid_zero
    · exact h'.cleared w hw hQ
  · intro e he w hw hnot
    calc
      u.pte e w = t.pte e w := h'.kept e (hpgdirs ▸ he) w hw fun hc => hnot ⟨hc.1, Or.inr hc.2⟩
      _ = s.pte e w := h.kept e he w hw fun hc => hnot ⟨hc.1, Or.inl hc.2⟩
  · intro w hw
    rcases h'.only w hw with heq | hzero
    · rw [heq]
      exact h.only w hw
    · exact Or.inr hzero
  · intro g hg
    refine (h'.mem g fun sl hsl => ?_).trans (h.mem g hg)
    unfold rekind at hsl
    rw [if_neg (by simp)] at hsl
    split at hsl
    · cases hsl
    · exact hg sl hsl

theorem Unmaps.mono {P Q : Nat → Prop} (h : Unmaps kind s t d P) (hPQ : ∀ w < userPages, P w ↔ Q w) :
    Unmaps kind s t d Q :=
  ⟨h.env, h.frames, h.next, h.pt, fun w hw hQ => h.cleared w hw ((hPQ w hw).2 hQ),
    fun e he w hw hnot => h.kept e he w hw fun hc => hnot ⟨hc.1, (hPQ w hw).1 hc.2⟩, h.only, h.mem⟩

/-- What `dropRef` leaves of a page that is not free. -/
def Vm.dropped (s : Vm) (f : Nat) : Vm :=
  { s with
    ref := Function.update s.ref f (s.ref f - 1)
    free := if s.ref f = 1 then insert f s.free else s.free }

theorem dropRef_eq (hpool : f ∈ s.pmm.pool) (hfree : f ∉ s.free) : dropRef s f = done (s.dropped f) := by
  have hself : (s.setPageRef f (s.ref f - 1)).ref f = s.ref f - 1 := Function.update_self _ _ _
  unfold dropRef
  simp only [hself]
  by_cases hone : s.ref f = 1
  · have hassert : f ∈ (s.setPageRef f (s.ref f - 1)).pmm.pool := hpool
    have hnot : f ∉ (s.setPageRef f (s.ref f - 1)).free := hfree
    rw [if_pos (by omega), freePage, assert_of hassert, bind_done, if_neg hnot]
    simp [Vm.dropped, Vm.setPageRef, hone]
  · rw [if_neg (by omega)]
    simp [Vm.dropped, Vm.setPageRef, hone]

/-- The number of entries that map a page says whether the entry in hand is the last one. -/
theorem Frames.ref_eq_one (h : Frames kind s) (hf : kind f = FrameKind.data) {m : Nat × Nat}
    (hm : m ∈ s.maps f) : s.ref f = 1 ↔ (s.maps f).erase m = ∅ := by
  rw [(h.ref f hf).1, ← Finset.card_eq_zero, Finset.card_erase_of_mem hm]
  have hpos : 0 < (s.maps f).card := Finset.card_pos.2 ⟨m, hm⟩
  omega

theorem Frames.boot_ne (h : Frames kind s) (hf : kind f ≠ FrameKind.other) : s.bootPgdir ≠ f := by
  rintro rfl
  exact hf h.boot.1

/-- `page_remove_pte` clears a valid entry and drops the reference of its page. -/
theorem pageRemovePte_unmaps (h : Frames kind s) (hp : kind p = FrameKind.table d (v / nPteEntry))
    (hv : v < userPages) :
    ∃ t, pageRemovePte s p (v % nPteEntry) = done t ∧ Unmaps kind s t d fun w => w = v := by
  obtain ⟨hd, -, hpt⟩ := (h.table p d _).1 hp
  have hpte : s.pte d v = s.mem p (v % nPteEntry) := Vm.pte_of_pt hpt
  unfold pageRemovePte
  by_cases hvalid : (s.mem p (v % nPteEntry)).Valid
  · let f := ptePpn (s.mem p (v % nPteEntry))
    have hframe : (s.mem p (v % nPteEntry)).frame = some f := Pte.frame_eq_some.2 ⟨hvalid, rfl⟩
    have hpage : s.page d v = some f := by rw [Vm.page, hpte, hframe]
    have hdata := h.data d v f hd hv hpage
    have hnotFree : f ∉ s.free := by
      rw [h.free, hdata]
      simp
    let t := (s.dropped f).setWord p (v % nPteEntry) 0
    have henv : s.SameEnv t := ⟨rfl, rfl, rfl, rfl, rfl, rfl, rfl⟩
    have hmem : ∀ g k, t.mem g k = if g = p ∧ k = v % nPteEntry then 0 else s.mem g k := fun g k =>
      setWord_mem g k
    have hset : SetsEntry s t d v 0 := h.setsEntry hp hmem
    have hnone : ∀ g, Pte.frame 0 ≠ some g := by simp
    have hbootNe : s.bootPgdir ≠ p := h.boot_ne (by simp [hp])
    have hin : (d, v) ∈ s.maps f := mem_maps.2 ⟨hd, hv, hpage⟩
    have hmaps : t.maps f = (s.maps f).erase (d, v) := by
      rw [hset.maps rfl hd hv, if_neg (hnone f)]
    have hframes : Frames (rekind kind t (Pte.frame 0)) t := by
      refine h.entryChange henv hd hv hset ?_ ?_ ?_ ?_
      · intro i _
        rw [hmem, if_neg fun hc => hbootNe hc.1]
      · intro g hg
        exact absurd hg (hnone g)
      · intro g
        rw [if_neg (hnone g), hpage]
        change Function.update s.ref f (s.ref f - 1) g = _
        by_cases hg : g = f
        · subst hg
          simp
        · simp [hg, Ne.symm hg]
      · intro g
        change g ∈ (if s.ref f = 1 then insert f s.free else s.free) ↔ _
        rw [hpage]
        have hlast : s.ref f = 1 ↔ t.maps f = ∅ := by
          rw [hmaps]
          exact h.ref_eq_one hdata hin
        by_cases hone : s.ref f = 1
        · rw [if_pos hone, Finset.mem_insert, or_comm]
          refine or_congr Iff.rfl ⟨?_, ?_⟩
          · rintro rfl
            exact ⟨rfl, hlast.1 hone⟩
          · rintro ⟨hg, -⟩
            exact (Option.some.inj hg).symm
        · rw [if_neg hone]
          refine ⟨Or.inl, fun hc => hc.elim id ?_⟩
          rintro ⟨hg, hempty⟩
          cases hg
          exact absurd (hlast.2 hempty) hone
    refine ⟨t, ?_, henv, ?_, hset.next, hset.pt, ?_, ?_, ?_, ?_⟩
    · rw [if_pos hvalid, pte2page_eq hframe (h.lt_npage (by simp [hdata])), bind_done,
        dropRef_eq (h.pool f (by simp [hdata])) hnotFree]
      rfl
    · simpa using hframes
    · rintro w hw rfl
      rw [hset.pte d hd w hw, if_pos ⟨rfl, rfl⟩]
      exact not_valid_zero
    · intro e he w hw hnot
      rw [hset.pte e he w hw, if_neg hnot]
    · intro w hw
      rw [hset.pte d hd w hw]
      by_cases hwv : w = v
      · exact Or.inr (if_pos ⟨rfl, hwv⟩)
      · exact Or.inl (if_neg fun hc => hwv hc.2)
    · intro g hg
      have hne : g ≠ p := by
        rintro rfl
        exact hg _ hp
      funext k
      rw [hmem, if_neg fun hc => hne hc.1]
  · refine ⟨s, by rw [if_neg hvalid]; rfl, Unmaps.refl h d _ ?_⟩
    rintro w hw rfl
    rwa [hpte]

/-! ## unmap_range -/

/-- The pages from one address up to another. -/
def Between (start stop w : Nat) : Prop :=
  start / pgSize ≤ w ∧ w < stop / pgSize

theorem unmapStep_unmaps {start stop : Nat} (h : Frames kind s) (hd : d ∈ s.pgdirs)
    (hstart : start % pgSize = 0) (hstop : stop % pgSize = 0) (hlt : start < stop) (htop : stop ≤ userTop) :
    ∃ t start', unmapStep s d start = done (t, start') ∧ start' % pgSize = 0 ∧ start + pgSize ≤ start' ∧
      Unmaps kind s t d fun w => Between start stop w ∧ w < start' / pgSize := by
  have hla : start < userTop := hlt.trans_le htop
  have hdiv := div_ptSize start
  unfold unmapStep
  rw [getPte_false h hd hla, bind_done]
  cases hpt : s.pt d (start / ptSize) with
  | none =>
      refine ⟨s, _, rfl, ?_, ?_, Unmaps.refl h d _ ?_⟩
      · unfold roundDown ptSize pgSize
        omega
      · unfold roundDown ptSize pgSize
        unfold pgSize at hstart
        omega
      · -- the pages up to the next table have none
        rintro w - ⟨⟨hlow, -⟩, hhigh⟩
        have hslot : w / nPteEntry = start / ptSize := by
          unfold roundDown ptSize pgSize at *
          unfold nPteEntry
          omega
        rw [Vm.pte_of_none (hslot ▸ hpt)]
        exact not_valid_zero
  | some p =>
      have hp : kind p = FrameKind.table d (start / pgSize / nPteEntry) := by
        rw [hdiv]
        exact (h.table p d _).2 ⟨hd, div_lt_tables hla, hpt⟩
      have hone : ∀ w, Between start stop w ∧ w < (start + pgSize) / pgSize ↔ w = start / pgSize := by
        intro w
        unfold Between pgSize at *
        omega
      simp only [Option.map_some]
      by_cases hzero : s.mem p (start / pgSize % nPteEntry) = 0
      · rw [if_neg (by simpa using hzero)]
        refine ⟨s, _, rfl, by simpa using hstart, le_rfl, Unmaps.refl h d _ ?_⟩
        rintro w - hw
        rw [(hone w).1 hw, Vm.pte_of_pt (hdiv.symm ▸ hpt), hzero]
        exact not_valid_zero
      · obtain ⟨t, ht, hunmaps⟩ := pageRemovePte_unmaps h hp (div_lt_pages hla)
        rw [if_pos (by simpa using hzero), ht]
        exact ⟨t, _, rfl, by simpa using hstart, le_rfl, hunmaps.mono fun w _ => (hone w).symm⟩

theorem unmapLoop_unmaps (bound : Nat) : ∀ {kind : Nat → FrameKind} {s : Vm} {start stop : Nat},
    Frames kind s → d ∈ s.pgdirs → start % pgSize = 0 → stop % pgSize = 0 → start < stop →
    stop ≤ userTop → stop ≤ start + bound * pgSize →
    ∃ t, unmapLoop bound s d start stop = done t ∧ Unmaps kind s t d (Between start stop) := by
  induction bound with
  | zero =>
      intro kind s start stop _ _ _ _ hlt _ hbound
      omega
  | succ bound ih =>
      intro kind s start stop h hd hstart hstop hlt htop hbound
      obtain ⟨t, start', hstep, hstart', hnext, hunmaps⟩ :=
        unmapStep_unmaps h hd hstart hstop hlt htop
      unfold unmapLoop
      rw [hstep, bind_done]
      dsimp only
      by_cases hmore : start' < stop
      · have hpos : start' ≠ 0 := by
          unfold pgSize at hnext
          omega
        rw [if_pos ⟨hpos, hmore⟩]
        obtain ⟨u, hrun, hrest⟩ := ih hunmaps.frames (hunmaps.env.pgdirs ▸ hd) hstart' hstop hmore htop
          (by rw [Nat.succ_mul] at hbound; omega)
        refine ⟨u, hrun, (hunmaps.trans hrest).mono fun w _ => ?_⟩
        unfold Between pgSize at *
        omega
      · rw [if_neg fun hc => hmore hc.2]
        refine ⟨t, rfl, hunmaps.mono fun w _ => ?_⟩
        unfold Between pgSize at *
        omega

/-- `unmap_range` clears exactly the pages of the range. -/
theorem unmapRange_unmaps {start stop : Nat} (h : Frames kind s) (hd : d ∈ s.pgdirs)
    (hstart : start % pgSize = 0) (hstop : stop % pgSize = 0) (huser : UserAccess start stop) :
    ∃ t, unmapRange s d start stop = done t ∧ Unmaps kind s t d (Between start stop) := by
  unfold unmapRange
  rw [assert_of ⟨hstart, hstop⟩, bind_done, assert_of huser, bind_done]
  refine unmapLoop_unmaps _ h hd hstart hstop huser.2.1 huser.2.2 ?_
  unfold pgSize at *
  omega

end TriOS
