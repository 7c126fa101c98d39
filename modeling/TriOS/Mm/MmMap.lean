import TriOS.Mm.UserMem

/-!
# MmMap — new areas of an address space

`mm_map` looks for an area at the start of the new range only. A range that begins between two areas and runs into
the next one is caught by the assertions of `insert_vma_struct`, and the end of a range is taken in 64-bit
arithmetic. What remains of the areas is right in every address space that the code can make.
-/

namespace TriOS

open Intervals Outcome

variable {mm mm' : MmStruct} {vma v : Vma} {vmas rest : List Vma} {flags : UInt32} {kmallocOk : Bool}
  {addr len start stop : Nat} {grants : Vma → Bool × Bool} {r : Int}

/-! ## insert_vma_struct -/

/-- The area has a byte in `[start, stop)`. -/
def Vma.Overlaps (vma : Vma) (start stop : Nat) : Prop := Meets Vma.start Vma.stop vma start stop

instance (vma : Vma) (start stop : Nat) : Decidable (vma.Overlaps start stop) :=
  inferInstanceAs (Decidable (_ ∧ _))

theorem vmas_split (h : Sorted Vma.start Vma.stop vmas) (vma : Vma) :
    vmasBefore vmas vma ++ vmasAfter vmas vma = vmas ∧
      (∀ v ∈ vmasBefore vmas vma, v.start ≤ vma.start) ∧ ∀ v ∈ vmasAfter vmas vma, vma.start < v.start :=
  ⟨List.takeWhile_append_dropWhile, h.split vma.start⟩

/-- An area that none of the list overlaps is inserted in its place. -/
theorem insertVmaStruct_clear (h : Sorted Vma.start Vma.stop vmas) (hlt : vma.start < vma.stop)
    (hclear : ∀ v ∈ vmas, ¬ v.Overlaps vma.start vma.stop) :
    insertVmaStruct vmas vma = done (vmasBefore vmas vma ++ vma :: vmasAfter vmas vma) ∧
      Sorted Vma.start Vma.stop (vmasBefore vmas vma ++ vma :: vmasAfter vmas vma) := by
  obtain ⟨hsplit, hbefore, hafter⟩ := vmas_split h vma
  have hmem : ∀ v, v ∈ vmasBefore vmas vma ∨ v ∈ vmasAfter vmas vma → v ∈ vmas := by
    intro v hv
    rw [← hsplit]
    exact List.mem_append.2 hv
  have hends : ∀ v ∈ vmasBefore vmas vma, v.stop ≤ vma.start := by
    intro v hv
    by_contra hstop
    exact hclear v (hmem v (Or.inl hv)) ⟨(hbefore v hv).trans_lt hlt, Nat.not_le.1 hstop⟩
  have hbegins : ∀ v ∈ vmasAfter vmas vma, vma.stop ≤ v.start := by
    intro v hv
    by_contra hstop
    have hne := h.nonempty v (hmem v (Or.inr hv))
    exact hclear v (hmem v (Or.inr hv)) ⟨Nat.not_le.1 hstop, (hafter v hv).trans hne⟩
  refine ⟨?_, Sorted.insert (hsplit.symm ▸ h) hlt hends hbegins⟩
  have hprev : ((vmasBefore vmas vma).getLast?.elim (pure ()) fun prev => checkVmaOverlap prev vma) = done () := by
    cases hlast : (vmasBefore vmas vma).getLast? with
    | none => rfl
    | some prev =>
        have hin := List.mem_of_getLast? hlast
        have hne := h.nonempty prev (hmem prev (Or.inl hin))
        simp only [Option.elim_some, checkVmaOverlap, assert_of hne, assert_of (hends prev hin), assert_of hlt,
          bind_done]
  have hnext : ((vmasAfter vmas vma).head?.elim (pure ()) fun next => checkVmaOverlap vma next) = done () := by
    cases hhead : (vmasAfter vmas vma).head? with
    | none => rfl
    | some next =>
        have hin := List.mem_of_mem_head? hhead
        have hne := h.nonempty next (hmem next (Or.inr hin))
        simp only [Option.elim_some, checkVmaOverlap, assert_of hne, assert_of (hbegins next hin), assert_of hlt,
          bind_done]
  unfold insertVmaStruct
  rw [assert_of hlt, bind_done, hprev, bind_done, hnext, bind_done, pure_eq_done]

/-- An area that begins in a gap and runs into the next one stops the machine. -/
theorem insertVmaStruct_overlap (h : Sorted Vma.start Vma.stop vmas) (hlt : vma.start < vma.stop) (hv : v ∈ vmas)
    (hgap : ∀ v ∈ vmas, ¬ v.Holds vma.start) (hinto : vma.start < v.start ∧ v.start < vma.stop) :
    insertVmaStruct vmas vma = panic := by
  obtain ⟨hsplit, hbefore, hafter⟩ := vmas_split h vma
  have hmem : ∀ v, v ∈ vmasBefore vmas vma ∨ v ∈ vmasAfter vmas vma ↔ v ∈ vmas := by
    intro v
    conv_rhs => rw [← hsplit]
    exact List.mem_append.symm
  have hprev : ((vmasBefore vmas vma).getLast?.elim (pure ()) fun prev => checkVmaOverlap prev vma) = done () := by
    cases hlast : (vmasBefore vmas vma).getLast? with
    | none => rfl
    | some prev =>
        have hin := List.mem_of_getLast? hlast
        have hne := h.nonempty prev ((hmem prev).1 (Or.inl hin))
        have hend : prev.stop ≤ vma.start := by
          by_contra hstop
          exact hgap prev ((hmem prev).1 (Or.inl hin)) ⟨hbefore prev hin, Nat.not_le.1 hstop⟩
        simp only [Option.elim_some, checkVmaOverlap, assert_of hne, assert_of hend, assert_of hlt, bind_done]
  have hv' : v ∈ vmasAfter vmas vma := by
    rcases (hmem v).2 hv with hin | hin
    · have hle := hbefore v hin
      omega
    · exact hin
  have hnext : ((vmasAfter vmas vma).head?.elim (pure ()) fun next => checkVmaOverlap vma next) = panic := by
    cases hhead : (vmasAfter vmas vma).head? with
    | none =>
        rw [List.head?_eq_none_iff.1 hhead] at hv'
        exact (List.not_mem_nil hv').elim
    | some next =>
        have hfirst := ((hsplit.symm ▸ h).of_append.2).head_le hv' hhead
        have hnot : ¬ vma.stop ≤ next.start := by omega
        simp only [Option.elim_some, checkVmaOverlap, assert_of hlt, assert_of_not hnot, bind_done, bind_panic]
  unfold insertVmaStruct
  rw [assert_of hlt, bind_done, hprev, bind_done, hnext, bind_panic]

/-! ## mm_map -/

/-- The address spaces that `mm_create`, `find_vma`, `mm_map` and `dup_mmap` make. -/
inductive MmReachable : MmStruct → Prop where
  | create : MmReachable mmCreate
  | lookup {mm : MmStruct} (addr : Nat) : MmReachable mm → MmReachable (mm.findVma addr).2
  | map {mm mm' : MmStruct} {addr len : Nat} {flags : UInt32} {kmallocOk : Bool} {r : Int} : MmReachable mm →
      mm.map addr len flags kmallocOk = done (r, mm') → MmReachable mm'
  | dup {source mm' : MmStruct} {grants : Vma → Bool × Bool} {r : Int} : MmReachable source →
      mmCreate.dupMmap source grants = done (r, mm') → MmReachable mm'

/-- The areas are sorted and disjoint, the cache is one of them, and they are counted. -/
def MmStruct.Wf (mm : MmStruct) : Prop := mm.Ok ∧ mm.mapCount = mm.mmapList.length

/-- The first page of a range. -/
def firstPage (addr : Nat) : Nat := addr / pgSize * pgSize

/-- The end of the last page of a range. -/
def pagesEnd (addr len : Nat) : Nat := (addr + len + pgSize - 1) / pgSize * pgSize

/-- The whole pages of a range are no area that can be added: there are none of them, they are not in the user
range, or one of the areas overlaps them. -/
def Refusable (vmas : List Vma) (addr len : Nat) : Prop :=
  pagesEnd addr len ≤ firstPage addr ∨ ¬ (userBase ≤ firstPage addr ∧ pagesEnd addr len ≤ userTop) ∨
    ∃ v ∈ vmas, v.Overlaps (firstPage addr) (pagesEnd addr len)

/-- A call of `mm_map` returns `-E_INVAL` exactly if the range is refusable; otherwise it adds the area of the
range, and nothing else, unless there is no memory for it. A call that fails leaves the areas as they are. -/
def MapMeets (mm : MmStruct) (addr len : Nat) (flags : UInt32) (kmallocOk : Bool) : Prop :=
  ∃ r mm', mm.map addr len flags kmallocOk = done (r, mm') ∧ (r = -eInval ↔ Refusable mm.mmapList addr len) ∧
    (r ≠ 0 → mm.Same mm') ∧
    (¬ Refusable mm.mmapList addr len → kmallocOk = true → r = 0 ∧ mm'.mapCount = mm.mapCount + 1 ∧
      ∃ l t, mm.mmapList = l ++ t ∧
        mm'.mmapList = l ++ { start := firstPage addr, stop := pagesEnd addr len, flags := flags } :: t)

/-- The range begins between the areas, and its end wraps around or an area begins before it. -/
def RunsOver (vmas : List Vma) (addr len : Nat) : Prop :=
  UserAccess (roundDown addr pgSize) (roundUp ((addr + len) % 2 ^ 64) pgSize) ∧
    (∀ v ∈ vmas, ¬ v.Holds (roundDown addr pgSize)) ∧
    (2 ^ 64 ≤ addr + len ∨ ∃ v ∈ vmas, roundDown addr pgSize < v.start ∧
      v.start < roundUp ((addr + len) % 2 ^ 64) pgSize)

theorem roundDown_eq_firstPage (addr : Nat) : roundDown addr pgSize = firstPage addr := by
  unfold roundDown firstPage pgSize
  omega

theorem roundUp_eq_pagesEnd (hsum : addr + len < 2 ^ 64)
    (haccess : UserAccess start (roundUp ((addr + len) % 2 ^ 64) pgSize)) :
    roundUp ((addr + len) % 2 ^ 64) pgSize = pagesEnd addr len := by
  have hstop := haccess.1.trans_lt haccess.2.1
  unfold roundUp roundDown userBase pgSize at hstop
  unfold roundUp roundDown pagesEnd pgSize
  omega

/-- A sum that wraps around is above the user range. -/
theorem userTop_lt_pagesEnd (hwrap : 2 ^ 64 ≤ addr + len) : userTop < pagesEnd addr len := by
  unfold userTop pagesEnd pgSize
  omega

/-- The call, when its range is a user range in 64-bit arithmetic that begins in a gap. -/
theorem map_gap (flags : UInt32) (kmallocOk : Bool)
    (haccess : UserAccess (roundDown addr pgSize) (roundUp ((addr + len) % 2 ^ 64) pgSize))
    (hfind : (mm.findVma (roundDown addr pgSize)).1 = none) :
    mm.map addr len flags kmallocOk =
      if kmallocOk then (do
        let mm ← (mm.findVma (roundDown addr pgSize)).2.insertVma
          { start := roundDown addr pgSize, stop := roundUp ((addr + len) % 2 ^ 64) pgSize, flags := flags }
        pure (0, mm))
      else pure (-eNoMem, (mm.findVma (roundDown addr pgSize)).2) := by
  unfold MmStruct.map
  dsimp only
  rw [if_neg (not_not.2 haccess), ← Prod.mk.eta (p := mm.findVma (roundDown addr pgSize)), hfind]
  rfl

/-- The call, when an area holds the start of its range. -/
theorem map_held (haccess : UserAccess (roundDown addr pgSize) (roundUp ((addr + len) % 2 ^ 64) pgSize))
    (hfind : (mm.findVma (roundDown addr pgSize)).1 = some vma) (hle : vma.start ≤ roundDown addr pgSize) :
    mm.map addr len flags kmallocOk = done (-eInval, (mm.findVma (roundDown addr pgSize)).2) := by
  have hbefore : vma.start < roundUp ((addr + len) % 2 ^ 64) pgSize := hle.trans_lt haccess.2.1
  unfold MmStruct.map
  dsimp only
  rw [if_neg (not_not.2 haccess), ← Prod.mk.eta (p := mm.findVma (roundDown addr pgSize)), hfind]
  dsimp only
  rw [if_pos (by simpa using hbefore)]
  rfl

/-- The call, when its range is none of the user. -/
theorem map_refused (haccess : ¬ UserAccess (roundDown addr pgSize) (roundUp ((addr + len) % 2 ^ 64) pgSize)) :
    mm.map addr len flags kmallocOk = done (-eInval, mm) := by
  unfold MmStruct.map
  dsimp only
  rw [if_pos haccess]
  rfl

theorem findVma_eq_none_iff (hok : mm.Ok) :
    (mm.findVma addr).1 = none ↔ ∀ v ∈ mm.mmapList, ¬ v.Holds addr := by
  rw [(hok.findVma_eq addr).1]
  constructor
  · intro hnone v hv hholds
    rw [(findVma_eq_some hok.areas).2 ⟨hv, hholds⟩] at hnone
    cases hnone
  · intro hgap
    cases hfind : TriOS.findVma mm.mmapList addr with
    | none => rfl
    | some v =>
        obtain ⟨hv, hholds⟩ := (findVma_eq_some hok.areas).1 hfind
        exact absurd hholds (hgap v hv)

theorem MmStruct.Same.wf (hsame : mm.Same mm') (h : mm.Wf) : mm'.Wf := by
  refine ⟨hsame.2.2, ?_⟩
  rw [hsame.1, hsame.2.1]
  exact h.2

/-- A new area that overlaps no other one is added. -/
theorem insertVma_clear (h : mm.Wf) (hlt : vma.start < vma.stop)
    (hclear : ∀ v ∈ mm.mmapList, ¬ v.Overlaps vma.start vma.stop) :
    ∃ l t mm', mm.insertVma vma = done mm' ∧ mm'.Wf ∧ mm.mmapList = l ++ t ∧ mm'.mmapList = l ++ vma :: t ∧
      mm'.mapCount = mm.mapCount + 1 := by
  obtain ⟨hinsert, hsorted⟩ := insertVmaStruct_clear h.1.areas hlt hclear
  have hsplit := (vmas_split h.1.areas vma).1
  refine ⟨vmasBefore mm.mmapList vma, vmasAfter mm.mmapList vma,
    { mm with
      mmapList := vmasBefore mm.mmapList vma ++ vma :: vmasAfter mm.mmapList vma
      mapCount := mm.mapCount + 1 },
    ?_, ⟨⟨hsorted, fun v hv => ?_⟩, ?_⟩, hsplit.symm, rfl, rfl⟩
  · unfold MmStruct.insertVma
    rw [hinsert]
    rfl
  · have hin : v ∈ vmasBefore mm.mmapList vma ++ vmasAfter mm.mmapList vma := hsplit.symm ▸ h.1.cache v hv
    rcases List.mem_append.1 hin with hin | hin
    · exact List.mem_append_left _ hin
    · exact List.mem_append_right _ (List.mem_cons_of_mem vma hin)
  · have hlen := congrArg List.length hsplit
    rw [List.length_append] at hlen
    rw [List.length_append, List.length_cons]
    have hcount := h.2
    dsimp only
    omega

/-- An area overlaps a range that begins outside of it if it begins in the range. -/
theorem overlaps_iff_of_gap (hne : v.start < v.stop) (hgap : ¬ v.Holds start) :
    v.Overlaps start stop ↔ start < v.start ∧ v.start < stop := by
  constructor
  · rintro ⟨hlt, hend⟩
    refine ⟨?_, hlt⟩
    by_contra hle
    exact hgap ⟨Nat.not_lt.1 hle, hend⟩
  · rintro ⟨hlt, hin⟩
    exact ⟨hin, hlt.trans hne⟩

/-- The three things a call can do that finds a gap. -/
theorem map_gap_cases (flags : UInt32) (kmallocOk : Bool) (h : mm.Wf)
    (haccess : UserAccess (roundDown addr pgSize) (roundUp ((addr + len) % 2 ^ 64) pgSize))
    (hgap : ∀ v ∈ mm.mmapList, ¬ v.Holds (roundDown addr pgSize)) :
    (kmallocOk = false ∧ ∃ mm', mm.map addr len flags kmallocOk = done (-eNoMem, mm') ∧ mm.Same mm') ∨
    (kmallocOk = true ∧ (∀ v ∈ mm.mmapList, ¬ v.Overlaps (roundDown addr pgSize)
        (roundUp ((addr + len) % 2 ^ 64) pgSize)) ∧
      ∃ l t mm', mm.map addr len flags kmallocOk = done (0, mm') ∧ mm'.Wf ∧ mm.mmapList = l ++ t ∧
        mm'.mmapList = l ++ ⟨roundDown addr pgSize, roundUp ((addr + len) % 2 ^ 64) pgSize, flags⟩ :: t ∧ mm'.mapCount = mm.mapCount + 1) ∨
    (kmallocOk = true ∧ (∃ v ∈ mm.mmapList, roundDown addr pgSize < v.start ∧
        v.start < roundUp ((addr + len) % 2 ^ 64) pgSize) ∧ mm.map addr len flags kmallocOk = panic) := by
  have hcall := map_gap flags kmallocOk haccess ((findVma_eq_none_iff h.1).2 hgap)
  obtain ⟨-, hsame⟩ := h.1.findVma_eq (roundDown addr pgSize)
  cases kmallocOk with
  | false => exact Or.inl ⟨rfl, _, hcall, hsame⟩
  | true =>
      right
      rw [if_pos rfl] at hcall
      by_cases hover : ∃ v ∈ mm.mmapList, roundDown addr pgSize < v.start ∧
          v.start < roundUp ((addr + len) % 2 ^ 64) pgSize
      · right
        refine ⟨rfl, hover, ?_⟩
        obtain ⟨v, hv, hinto⟩ := hover
        rw [hcall]
        unfold MmStruct.insertVma
        rw [hsame.1, insertVmaStruct_overlap h.1.areas haccess.2.1 hv hgap hinto]
        rfl
      · left
        have hclear : ∀ v ∈ mm.mmapList, ¬ v.Overlaps (roundDown addr pgSize)
            (roundUp ((addr + len) % 2 ^ 64) pgSize) := by
          intro v hv hmeets
          exact hover ⟨v, hv, (overlaps_iff_of_gap (h.1.areas.nonempty v hv) (hgap v hv)).1 hmeets⟩
        have hwf := hsame.wf h
        obtain ⟨l, t, mm', hinsert, hwf', hlist, hlist', hcount⟩ := @insertVma_clear (mm.findVma (roundDown addr pgSize)).2
          ⟨roundDown addr pgSize, roundUp ((addr + len) % 2 ^ 64) pgSize, flags⟩ hwf haccess.2.1 (hsame.1.symm ▸ hclear)
        rw [hinsert] at hcall
        rw [hsame.1] at hlist
        rw [hsame.2.1] at hcount
        exact ⟨rfl, hclear, l, t, mm', hcall, hwf', hlist, hlist', hcount⟩

/-- A call that finds an area at its start leaves the areas as they are. -/
theorem map_held_cases (flags : UInt32) (kmallocOk : Bool) (h : mm.Wf)
    (haccess : UserAccess (roundDown addr pgSize) (roundUp ((addr + len) % 2 ^ 64) pgSize))
    (hheld : ∃ v ∈ mm.mmapList, v.Holds (roundDown addr pgSize)) :
    ∃ mm', mm.map addr len flags kmallocOk = done (-eInval, mm') ∧ mm.Same mm' := by
  obtain ⟨v, hv, hholds⟩ := hheld
  obtain ⟨hfind, hsame⟩ := h.1.findVma_eq (roundDown addr pgSize)
  rw [(findVma_eq_some h.1.areas).2 ⟨hv, hholds⟩] at hfind
  exact ⟨_, map_held haccess hfind hholds.1, hsame⟩

/-! ## Every address space -/

theorem map_wf (h : mm.Wf) (hmap : mm.map addr len flags kmallocOk = done (r, mm')) : mm'.Wf := by
  by_cases haccess : UserAccess (roundDown addr pgSize) (roundUp ((addr + len) % 2 ^ 64) pgSize)
  · by_cases hheld : ∃ v ∈ mm.mmapList, v.Holds (roundDown addr pgSize)
    · obtain ⟨mm'', hcall, hsame⟩ := map_held_cases flags kmallocOk h haccess hheld
      rw [hcall] at hmap
      cases hmap
      exact hsame.wf h
    · have hgap : ∀ v ∈ mm.mmapList, ¬ v.Holds (roundDown addr pgSize) :=
        fun v hv hholds => hheld ⟨v, hv, hholds⟩
      rcases map_gap_cases flags kmallocOk h haccess hgap with
        ⟨-, mm'', hcall, hsame⟩ | ⟨-, -, l, t, mm'', hcall, hwf, -⟩ | ⟨-, -, hcall⟩
      · rw [hcall] at hmap
        cases hmap
        exact hsame.wf h
      · rw [hcall] at hmap
        cases hmap
        exact hwf
      · rw [hcall] at hmap
        cases hmap
  · rw [map_refused haccess] at hmap
    cases hmap
    exact h

/-- The induction is on the areas that are still to be copied; those of the new address space are the ones after
them. -/
theorem dupLoop_wf (h : mm.Wf) (hsorted : Sorted Vma.start Vma.stop (rest.reverse ++ vmas))
    (hcopied : ∀ v ∈ mm.mmapList, v ∈ vmas) :
    ∃ r mm', mm.dupLoop grants rest = done (r, mm') ∧ mm'.Wf := by
  induction rest generalizing mm vmas with
  | nil => exact ⟨0, mm, rfl, h⟩
  | cons vma rest ih =>
      rw [List.reverse_cons, List.append_assoc, List.singleton_append] at hsorted
      unfold MmStruct.dupLoop
      by_cases hgrant : (grants vma).1 = true
      · rw [if_pos hgrant]
        have hlater := hsorted.of_append.2
        have hlt := hlater.nonempty vma List.mem_cons_self
        have hclear : ∀ v ∈ mm.mmapList, ¬ v.Overlaps vma.start vma.stop := by
          intro v hv hmeets
          have hle := (List.pairwise_cons.1 hlater.disjoint).1 v (hcopied v hv)
          exact absurd hmeets.1 (Nat.not_lt.2 hle)
        obtain ⟨l, t, mm', hinsert, hwf, hlist, hlist', -⟩ := insertVma_clear h hlt hclear
        rw [hinsert, bind_done]
        by_cases hcopy : (grants vma).2 = true
        · rw [if_pos hcopy]
          refine ih hwf hsorted fun v hv => ?_
          rw [hlist'] at hv
          rcases List.mem_append.1 hv with hv | hv
          · exact List.mem_cons_of_mem vma (hcopied v (hlist.symm ▸ List.mem_append_left t hv))
          · rcases List.mem_cons.1 hv with rfl | hv
            · exact List.mem_cons_self
            · exact List.mem_cons_of_mem vma (hcopied v (hlist.symm ▸ List.mem_append_right l hv))
        · rw [if_neg hcopy]
          exact ⟨_, _, rfl, hwf⟩
      · rw [if_neg hgrant]
        exact ⟨_, _, rfl, h⟩

theorem mmCreate_wf : mmCreate.Wf :=
  ⟨⟨sorted_nil, fun _ hv => by cases hv⟩, rfl⟩

/-- A copy of the areas into a new address space does not stop the machine. -/
theorem dupMmap_wf (h : mm.Wf) (grants : Vma → Bool × Bool) :
    ∃ r mm', mmCreate.dupMmap mm grants = done (r, mm') ∧ mm'.Wf := by
  apply @dupLoop_wf mmCreate [] mm.mmapList.reverse grants mmCreate_wf
  · rw [List.reverse_reverse, List.append_nil]
    exact h.1.areas
  · exact fun v hv => hv

theorem MmReachable.wf (h : MmReachable mm) : mm.Wf := by
  induction h with
  | create => exact mmCreate_wf
  | lookup addr _ ih => exact (ih.1.findVma_eq addr).2.wf ih
  | map _ hmap ih => exact map_wf ih hmap
  | @dup source mm' grants r _ hdup ih =>
      obtain ⟨r', mm'', hdup', hwf⟩ := dupMmap_wf ih grants
      rw [hdup] at hdup'
      cases hdup'
      exact hwf

/-! ## Exactly which calls are right -/

/-- Where the sum wraps around, the range is refusable; elsewhere its pages are those of 64-bit arithmetic. -/
theorem refusable_iff (haccess : UserAccess (roundDown addr pgSize) (roundUp ((addr + len) % 2 ^ 64) pgSize)) :
    Refusable vmas addr len ↔ 2 ^ 64 ≤ addr + len ∨
      ∃ v ∈ vmas, v.Overlaps (roundDown addr pgSize) (roundUp ((addr + len) % 2 ^ 64) pgSize) := by
  unfold Refusable
  by_cases hsum : addr + len < 2 ^ 64
  · have hstop := roundUp_eq_pagesEnd hsum haccess
    rw [hstop, roundDown_eq_firstPage] at haccess ⊢
    obtain ⟨hbase, hlt, htop⟩ := haccess
    simp only [hbase, htop, and_self, not_true_eq_false, false_or]
    rw [or_iff_right (Nat.not_le.2 hlt), or_iff_right (Nat.not_le.2 hsum)]
  · have hwrap := Nat.not_lt.1 hsum
    have hlt := userTop_lt_pagesEnd hwrap
    constructor
    · exact fun _ => Or.inl hwrap
    · exact fun _ => Or.inr (Or.inl fun hrange => absurd hrange.2 (Nat.not_le.2 hlt))

theorem refusable_of_not_access
    (haccess : ¬ UserAccess (roundDown addr pgSize) (roundUp ((addr + len) % 2 ^ 64) pgSize)) :
    Refusable vmas addr len := by
  unfold Refusable
  by_contra hnot
  simp only [not_or, not_le, not_not] at hnot
  obtain ⟨hlt, ⟨hbase, htop⟩, -⟩ := hnot
  apply haccess
  have hstop : roundUp ((addr + len) % 2 ^ 64) pgSize = pagesEnd addr len := by
    unfold pagesEnd userTop pgSize at htop
    unfold roundUp roundDown pagesEnd pgSize
    omega
  rw [hstop, roundDown_eq_firstPage]
  exact ⟨hbase, hlt, htop⟩

/-- `mm_map` does what is asked of it unless its range runs over the next area, or over the end of the memory. -/
theorem mapMeets_iff (h : mm.Wf) : MapMeets mm addr len flags kmallocOk ↔ ¬ RunsOver mm.mmapList addr len := by
  by_cases haccess : UserAccess (roundDown addr pgSize) (roundUp ((addr + len) % 2 ^ 64) pgSize)
  · by_cases hheld : ∃ v ∈ mm.mmapList, v.Holds (roundDown addr pgSize)
    · -- the range is refused, and it overlaps what is found
      obtain ⟨mm', hcall, hsame⟩ := map_held_cases flags kmallocOk h haccess hheld
      obtain ⟨v, hv, hholds⟩ := hheld
      have href : Refusable mm.mmapList addr len :=
        (refusable_iff haccess).2 (Or.inr ⟨v, hv, hholds.1.trans_lt haccess.2.1, hholds.2⟩)
      constructor
      · exact fun _ hover => hover.2.1 v hv hholds
      · exact fun _ => ⟨-eInval, mm', hcall, ⟨fun _ => href, fun _ => rfl⟩, fun _ => hsame, fun hnot => absurd href hnot⟩
    · have hgap : ∀ v ∈ mm.mmapList, ¬ v.Holds (roundDown addr pgSize) :=
        fun v hv hholds => hheld ⟨v, hv, hholds⟩
      have hover : RunsOver mm.mmapList addr len ↔ Refusable mm.mmapList addr len := by
        rw [refusable_iff haccess]
        unfold RunsOver
        constructor
        · rintro ⟨-, -, hwrap | ⟨v, hv, hinto⟩⟩
          · exact Or.inl hwrap
          · exact Or.inr ⟨v, hv, (overlaps_iff_of_gap (h.1.areas.nonempty v hv) (hgap v hv)).2 hinto⟩
        · rintro (hwrap | ⟨v, hv, hmeets⟩)
          · exact ⟨haccess, hgap, Or.inl hwrap⟩
          · exact ⟨haccess, hgap,
              Or.inr ⟨v, hv, (overlaps_iff_of_gap (h.1.areas.nonempty v hv) (hgap v hv)).1 hmeets⟩⟩
      rw [hover]
      rcases map_gap_cases flags kmallocOk h haccess hgap with
        ⟨rfl, mm', hcall, hsame⟩ | ⟨rfl, -, l, t, mm', hcall, -, hlist, hlist', hcount⟩ | ⟨-, hinto, hcall⟩
      · constructor
        · rintro ⟨r, mm'', hcall', hinval, -⟩ href
          rw [hcall] at hcall'
          cases hcall'
          exact absurd (hinval.2 href) (by decide)
        · exact fun hnot => ⟨-eNoMem, mm', hcall, ⟨fun heq => absurd heq (by decide), fun href => absurd href hnot⟩,
            fun _ => hsame, fun _ hfalse => by cases hfalse⟩
      · constructor
        · rintro ⟨r, mm'', hcall', hinval, -⟩ href
          rw [hcall] at hcall'
          cases hcall'
          exact absurd (hinval.2 href) (by decide)
        · intro hnot
          have hsum : addr + len < 2 ^ 64 := by
            by_contra hwrap
            exact hnot ((refusable_iff haccess).2 (Or.inl (Nat.not_lt.1 hwrap)))
          rw [roundUp_eq_pagesEnd hsum haccess, roundDown_eq_firstPage] at hlist'
          exact ⟨0, mm', hcall, ⟨fun heq => absurd heq (by decide), fun href => absurd href hnot⟩,
            fun hne => absurd rfl hne, fun _ _ => ⟨rfl, hcount, l, t, hlist, hlist'⟩⟩
      · constructor
        · rintro ⟨r, mm', hcall', -⟩
          rw [hcall] at hcall'
          cases hcall'
        · intro hnot
          exact absurd (hover.1 ⟨haccess, hgap, Or.inr hinto⟩) hnot
  · have href : Refusable mm.mmapList addr len := refusable_of_not_access haccess
    constructor
    · exact fun _ hover => haccess hover.1
    · exact fun _ => ⟨-eInval, mm, map_refused haccess, ⟨fun _ => href, fun _ => rfl⟩,
        fun _ => MmStruct.Ok.refl h.1, fun hnot => absurd href hnot⟩

/-- In every address space that the code makes the areas are sorted and disjoint, the cache is one of them, and
they are counted; a call of `mm_map` does what is asked of it exactly if its range does not begin in a gap and run
over; and a copy of the address space does not stop the machine. -/
theorem mm_map_valid (h : MmReachable mm) :
    mm.Wf ∧ (∀ addr len flags kmallocOk, MapMeets mm addr len flags kmallocOk ↔ ¬ RunsOver mm.mmapList addr len) ∧
      ∀ grants, ∃ r mm', mmCreate.dupMmap mm grants = done (r, mm') := by
  refine ⟨h.wf, fun addr len flags kmallocOk => mapMeets_iff h.wf, fun grants => ?_⟩
  obtain ⟨r, mm', hdup, -⟩ := dupMmap_wf h.wf grants
  exact ⟨r, mm', hdup⟩

/-- A program of one page. -/
def onePage : MmStruct :=
  { mmapList := [⟨0x201000, 0x202000, vmRead⟩], mmapCache := none, mapCount := 1 }

theorem onePage_reachable : MmReachable onePage :=
  @MmReachable.map mmCreate onePage 0x201000 0x1000 vmRead true 0 MmReachable.create (by rfl)

theorem mm_map_valid_onePage :
    onePage.Wf ∧ (∀ addr len flags kmallocOk,
      MapMeets onePage addr len flags kmallocOk ↔ ¬ RunsOver onePage.mmapList addr len) ∧
      ∀ grants, ∃ r mm', mmCreate.dupMmap onePage grants = done (r, mm') :=
  mm_map_valid onePage_reachable

/-- The page below the program and the program itself, in one call. -/
theorem mm_map_runs_over :
    ¬ ∀ mm, MmReachable mm → ∀ addr len flags kmallocOk, addr < 2 ^ 64 → len < 2 ^ 64 →
      MapMeets mm addr len flags kmallocOk := by
  intro hclaim
  obtain ⟨r, mm', hcall, -⟩ := hclaim onePage onePage_reachable 0x200000 0x2000 vmRead true (by decide) (by decide)
  have hpanic : onePage.map 0x200000 0x2000 vmRead true = panic := by rfl
  rw [hpanic] at hcall
  cases hcall

end TriOS
