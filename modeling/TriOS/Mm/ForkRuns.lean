import TriOS.Mm.Fork

/-!
# ForkRuns — a fork serves its requests

Each piece of `copy_mm` serves its part of `forkRequests` and leaves the child as `Copied` says; where a
request is refused, the fork ends at once. What it owes then is settled by the areas that the child has.
-/

namespace TriOS

open Outcome Requests

variable {kind kind' kind'' : Nat → FrameKind} {s₀ s t u : Vm} {source d e f g i v w sl la page : Nat}
  {met rs : List Request} {r : Request} {vma : Vma} {vmas : List Vma} {mmOk : Bool} {kmallocOk : Vma → Bool}

/-! ## The lists -/

theorem areasOf_append : areasOf (met ++ rs) = areasOf rs ++ areasOf met := by
  unfold areasOf
  rw [List.filterMap_append, List.reverse_append]

theorem mem_areasOf : vma ∈ areasOf met ↔ Request.area vma ∈ met := by
  unfold areasOf
  rw [List.mem_reverse, List.mem_filterMap]
  constructor
  · rintro ⟨r, hr, hv⟩
    cases r <;> simp at hv
    exact hv ▸ hr
  · intro h
    exact ⟨_, h, rfl⟩

theorem mem_tablesOf : sl ∈ tablesOf met ↔ Request.table sl ∈ met := by
  unfold tablesOf
  rw [List.mem_toFinset, List.mem_filterMap]
  constructor
  · rintro ⟨r, hr, hv⟩
    cases r <;> simp at hv
    exact hv ▸ hr
  · intro h
    exact ⟨_, h, rfl⟩

theorem freeAfter_of_not (h : r.TakesPage = false) : s.freeAfter (met ++ [r]) = s.freeAfter met := by
  unfold Vm.freeAfter
  rw [List.countP_append, List.countP_singleton, if_neg (by simp [h]), Nat.add_zero]

theorem freeAfter_takes (h : r.TakesPage = true) (hpick : s.pmm.pick (s.freeAfter met) = some page) :
    s.freeAfter (met ++ [r]) = (s.freeAfter met).erase page := by
  unfold Vm.freeAfter at *
  rw [List.countP_append, List.countP_singleton, if_pos h, PageAllocator.freeAfter, hpick]

/-! ## One request -/

/-- How a fork ends at the request `r`: with an error, or not at all. -/
def Refused (kind : Nat → FrameKind) (s₀ : Vm) (source d : Nat) (met : List Request) (r : Request)
    (x : Outcome (Int × Vm)) : Prop :=
  Soft s₀ r ∧ (∃ ret t, ret ≠ 0 ∧ x = done (ret, t) ∧ Copied kind s₀ source d met t) ∨
    ¬ Soft s₀ r ∧ x = panic

/-- A piece of a fork has ended well. -/
def Copies (kind : Nat → FrameKind) (s₀ : Vm) (source d : Nat) (met : List Request) (x : Int × Vm) : Prop :=
  x.1 = 0 ∧ Copied kind s₀ source d met x.2

theorem Copied.child_mem (h : Copied kind s₀ source d met t) : d ∈ t.pgdirs := by
  rw [h.pgdirs]
  exact Finset.mem_insert_self _ _

theorem Copied.old_mem (h : Copied kind s₀ source d met t) (he : e ∈ s₀.pgdirs) : e ∈ t.pgdirs := by
  rw [h.pgdirs]
  exact Finset.mem_insert_of_mem he

theorem Copied.ne_child (h : Copied kind s₀ source d met t) (hs₀ : Frames kind s₀) (he : e ∈ s₀.pgdirs) :
    e ≠ d := by
  rintro rfl
  have hroot := (hs₀.root e).1 he
  rw [h.child] at hroot
  cases hroot

/-- The allocator answers as the list says. -/
theorem Copied.pick (h : Copied kind s₀ source d met t) : t.pmm.pick t.free = s₀.pmm.pick (s₀.freeAfter met) := by
  rw [h.pmm, h.free]

theorem Copied.kind_eq (hk : kind f ≠ FrameKind.free)
    (huses : ∀ f, kind' f = kind f ∨ kind f = FrameKind.free ∧ ChildUse d f (kind' f)) : kind' f = kind f := by
  rcases huses f with heq | ⟨hfree, -⟩
  · exact heq
  · exact absurd hfree hk

/-- A table of the child has been added. -/
theorem Copied.grows {k : FrameKind} (h : Copied kind s₀ source d met t) (hframes : Frames kind' t)
    (huses : ∀ f, kind' f = kind f ∨ kind f = FrameKind.free ∧ ChildUse d f (kind' f))
    (hgrows : Grows kind' (Function.update kind' page k) t u d sl) (hpage : kind' page = FrameKind.free)
    (hk : ChildUse d page k) (hpick : t.pmm.pick t.free = some page) (hfree : u.free = t.free.erase page)
    (hr : (∃ i, r = Request.dir i) ∨ ∃ sl, r = Request.table sl)
    (hdirs : ∀ i < userDirs, u.next d i ≠ none ↔ Request.dir i ∈ met ++ [r])
    (htables : ∀ sl < userTables, u.pt d sl ≠ none ↔ Request.table sl ∈ met ++ [r])
    (htableDirs : ∀ sl < userTables, Request.table sl ∈ met ++ [r] →
      Request.dir (sl / nPteEntry) ∈ met ++ [r]) :
    Copied kind s₀ source d (met ++ [r]) u := by
  have htakes : r.TakesPage = true := by rcases hr with ⟨i, rfl⟩ | ⟨sl, rfl⟩ <;> rfl
  have hareas : areasOf (met ++ [r]) = areasOf met := by
    rw [areasOf_append]
    rcases hr with ⟨i, rfl⟩ | ⟨sl, rfl⟩ <;> rfl
  have hpages : ∀ w, Request.page w ∈ met ++ [r] ↔ Request.page w ∈ met := by
    intro w
    rcases hr with ⟨i, rfl⟩ | ⟨sl, rfl⟩ <;> simp
  have hwas : kind page = FrameKind.free := by
    rcases huses page with heq | ⟨hfree', -⟩
    · exact heq.symm.trans hpage
    · exact hfree'
  refine ⟨h.child, ?_, ?_, ?_, ?_, ?_, ?_, ⟨_, hgrows.frames, ?_⟩, hdirs, htables, htableDirs, ?_, ?_, ?_, ?_, ?_, ?_⟩
  · rw [hgrows.env.pmm, h.pmm]
  · rw [hgrows.env.swapInitOk, h.swapInitOk]
  · rw [hgrows.env.swap, h.swap]
  · rw [hgrows.env.pgdirs, h.pgdirs]
  · rw [hgrows.env.mmap, h.mmap, hareas]
  · rw [hfree, h.free, freeAfter_takes htakes (h.pick ▸ hpick)]
  · intro f
    by_cases hf : f = page
    · subst hf
      rw [Function.update_self]
      exact Or.inr ⟨hwas, hk⟩
    · rw [Function.update_of_ne hf]
      exact huses f
  · intro e he w hw
    rw [hgrows.pte e (h.old_mem he) w hw, h.others e he w hw]
  · intro w hw hin
    obtain ⟨f, g, hg, hlt, hpte, hmem⟩ := h.copy w hw ((hpages w).1 hin)
    refine ⟨f, g, hg, hlt, by rw [hgrows.pte d h.child_mem w hw, hpte], ?_⟩
    have hdata : kind' f = FrameKind.data :=
      hframes.data d w f h.child_mem hw (by rw [Vm.page, hpte]; exact frame_insert (userPerm _) hlt)
    rw [hgrows.mem f (Or.inl hdata), hmem]
  · intro w hw hnot
    rw [hgrows.pte d h.child_mem w hw]
    exact h.blank w hw fun hc => hnot ((hpages w).2 hc)
  · intro w hin
    rw [hareas]
    exact h.inside w ((hpages w).1 hin)
  · intro w hw f hf
    rw [Vm.page, hgrows.pte d h.child_mem w hw] at hf
    rw [← h.own w hw f hf]
    ext ⟨e, w'⟩
    rw [mem_maps, mem_maps, hgrows.env.pgdirs]
    exact and_congr_right fun he => and_congr_right fun hw' => by rw [Vm.page, hgrows.pte e he w' hw', Vm.page]
  · intro g hg
    have hg' : kind' g = FrameKind.data := (Copied.kind_eq (by simp [hg]) huses).trans hg
    rw [hgrows.mem g (Or.inl hg'), h.mem g hg]

/-- The child has its level-0 directory of the address. -/
theorem Copied.newDir (h : Copied kind s₀ source d met t) (hla : la < userTop)
    (hnot : Request.dir (la / ptSize / nPteEntry) ∉ met) (hpick : t.pmm.pick t.free = some page) :
    Copied kind s₀ source d (met ++ [Request.dir (la / ptSize / nPteEntry)])
      (t.newTable page d (la / ptSize / nPteEntry)) := by
  obtain ⟨kind', hframes, huses⟩ := h.frames
  have hsl := div_lt_tables hla
  have hi := div_lt_userDirs hsl
  have hpage := t.pmm.pick_mem _ _ hpick
  have hnone : t.next d (la / ptSize / nPteEntry) = none := by
    by_contra hc
    exact hnot ((h.dirs _ hi).1 hc)
  have hadds := hframes.newDir_adds h.child_mem hnone hpage
  refine h.grows hframes huses (hframes.newDir_grows h.child_mem hsl hnone hpage)
    ((hframes.free page).1 hpage) (Or.inr (Or.inl ⟨_, rfl⟩)) hpick rfl (Or.inl ⟨_, rfl⟩) ?_ ?_ ?_
  · intro i hi'
    rw [hadds.next d h.child_mem i hi']
    by_cases hc : i = la / ptSize / nPteEntry
    · simp [hc]
    · rw [if_neg fun hc' => hc hc'.2, h.dirs i hi']
      simp [hc]
  · intro sl hsl'
    rw [hadds.pt d h.child_mem sl hsl', h.tables sl hsl']
    simp
  · intro sl hsl' hin
    have hin' : Request.table sl ∈ met := by simpa using hin
    exact List.mem_append_left _ (h.tableDirs sl hsl' hin')

/-- The child has its page table of the address. -/
theorem Copied.newTable {q : Nat} (h : Copied kind s₀ source d met t) (hla : la < userTop)
    (hdir : Request.dir (la / ptSize / nPteEntry) ∈ met) (hnot : Request.table (la / ptSize) ∉ met)
    (hq : t.next d (la / ptSize / nPteEntry) = some q) (hpick : t.pmm.pick t.free = some page) :
    Copied kind s₀ source d (met ++ [Request.table (la / ptSize)])
      (t.newTable page q (la / ptSize % nPteEntry)) := by
  obtain ⟨kind', hframes, huses⟩ := h.frames
  have hsl := div_lt_tables hla
  have hpage := t.pmm.pick_mem _ _ hpick
  have hnone : t.next q (la / ptSize % nPteEntry) = none := by
    by_contra hc
    refine hnot ((h.tables _ hsl).1 ?_)
    rwa [Vm.pt, hq]
  have hadds := hframes.newTable_adds h.child_mem hsl hq hnone hpage
  refine h.grows hframes huses (hframes.newTable_grows h.child_mem hsl hq hnone hpage)
    ((hframes.free page).1 hpage) (Or.inr (Or.inr (Or.inl ⟨_, rfl⟩))) hpick rfl (Or.inr ⟨_, rfl⟩) ?_ ?_ ?_
  · intro i hi
    rw [hadds.next d h.child_mem i hi, h.dirs i hi]
    simp
  · intro sl hsl'
    rw [hadds.pt d h.child_mem sl hsl']
    by_cases hc : sl = la / ptSize
    · simp [hc]
    · rw [if_neg fun hc' => hc hc'.2, h.tables sl hsl']
      simp [hc]
  · intro sl hsl' hin
    rw [List.mem_append, List.mem_singleton] at hin
    rcases hin with hin | hin
    · exact List.mem_append_left _ (h.tableDirs sl hsl' hin)
    · cases hin
      exact List.mem_append_left _ hdir

/-- A page of the parent has been copied. -/
theorem Copied.addPage {pte : Pte} (h : Copied kind s₀ source d met t) (hs₀ : Frames kind s₀)
    (hsource : source ∈ s₀.pgdirs) (hframes : Frames kind' t)
    (huses : ∀ f, kind' f = kind f ∨ kind f = FrameKind.free ∧ ChildUse d f (kind' f)) (hv : v < userPages)
    (hg : s₀.page source v = some g) (hpte : pte = s₀.pte source v) (hin : InVmas (areasOf met) v)
    (hnew : Request.page v ∉ met)
    (hpick : t.pmm.pick t.free = some page)
    (hfresh : MapsFresh kind' t u d v page (t.mem g) (pteCreate page (pteV ||| (userPerm pte).bits))) :
    Copied kind s₀ source d (met ++ [Request.page v]) u := by
  have hareas : areasOf (met ++ [Request.page v]) = areasOf met := by
    rw [areasOf_append]
    rfl
  have hwas : kind page = FrameKind.free := by
    rcases huses page with heq | ⟨hfree', -⟩
    · exact heq.symm.trans hfresh.was
    · exact hfree'
  have hlt : page < npage := hframes.lt_npage (by simp [hfresh.was])
  have hdataKeep : ∀ f, kind' f = FrameKind.data → u.mem f = t.mem f := by
    intro f hf
    refine hfresh.mem f ?_ fun sl => by simp [hf]
    rintro rfl
    rw [hfresh.was] at hf
    cases hf
  have hgdata : kind g = FrameKind.data := hs₀.data source v g hsource hv hg
  -- nothing loses an entry, because the entry was blank
  have hkeep : ∀ f, f ≠ page →
      rekind (Function.update kind' page FrameKind.held) u (some page) f = kind' f := by
    intro f hf
    unfold rekind
    rw [if_neg fun hc => hf (Option.some.inj hc).symm, Function.update_of_ne hf, if_neg]
    rintro ⟨hdata, hempty⟩
    have hblank : (d, v) ∉ t.maps f := by
      rw [mem_maps, Vm.page, h.blank v hv hnew, Pte.frame_zero]
      simp
    rw [hfresh.sets.maps hfresh.env.pgdirs h.child_mem hv, hfresh.frame,
      if_neg fun hc => hf (Option.some.inj hc).symm, Finset.erase_eq_of_notMem hblank] at hempty
    exact Finset.nonempty_iff_ne_empty.1 (hframes.ref f hdata).2 hempty
  have hfree : u.free = t.free.erase page := by
    ext f
    rw [hfresh.frames.free, Finset.mem_erase]
    by_cases hf : f = page
    · subst hf
      simp [rekind_self]
    · rw [hkeep f hf, hframes.free]
      simp [hf]
  refine ⟨h.child, ?_, ?_, ?_, ?_, ?_, ?_, ⟨_, hfresh.frames, ?_⟩, ?_, ?_, ?_, ?_, ?_, ?_, ?_, ?_, ?_⟩
  · rw [hfresh.env.pmm, h.pmm]
  · rw [hfresh.env.swapInitOk, h.swapInitOk]
  · rw [hfresh.env.swap, h.swap]
  · rw [hfresh.env.pgdirs, h.pgdirs]
  · rw [hfresh.env.mmap, h.mmap, hareas]
  · rw [hfree, h.free, freeAfter_takes rfl (h.pick ▸ hpick)]
  · intro f
    by_cases hf : f = page
    · subst hf
      rw [rekind_self]
      exact Or.inr ⟨hwas, Or.inr (Or.inr (Or.inr rfl))⟩
    · rw [hkeep f hf]
      exact huses f
  · intro i hi
    rw [hfresh.sets.next d h.child_mem i hi, h.dirs i hi]
    simp
  · intro sl hsl
    rw [hfresh.sets.pt d h.child_mem sl hsl, h.tables sl hsl]
    simp
  · intro sl hsl hin'
    have hin'' : Request.table sl ∈ met := by simpa using hin'
    exact List.mem_append_left _ (h.tableDirs sl hsl hin'')
  · intro e he w hw
    have hne : e ≠ d := h.ne_child hs₀ he
    rw [hfresh.sets.pte e (h.old_mem he) w hw, if_neg fun hc => hne hc.1, h.others e he w hw]
  · intro w hw hin'
    by_cases hwv : w = v
    · subst hwv
      refine ⟨page, g, hg, hlt, ?_, ?_⟩
      · rw [hfresh.sets.pte d h.child_mem w hw, if_pos ⟨rfl, rfl⟩, hpte]
      · rw [hfresh.words, h.mem g hgdata]
    · have hin'' : Request.page w ∈ met := by simpa [hwv] using hin'
      obtain ⟨f, g', hg', hlt', hpte', hmem⟩ := h.copy w hw hin''
      refine ⟨f, g', hg', hlt', ?_, ?_⟩
      · rw [hfresh.sets.pte d h.child_mem w hw, if_neg fun hc => hwv hc.2, hpte']
      · rw [hdataKeep f, hmem]
        exact hframes.data d w f h.child_mem hw
          (by rw [Vm.page, hpte']; exact frame_insert (userPerm _) hlt')
  · intro w hw hnot
    have hwv : w ≠ v := by
      rintro rfl
      exact hnot (by simp)
    rw [hfresh.sets.pte d h.child_mem w hw, if_neg fun hc => hwv hc.2]
    exact h.blank w hw fun hc => hnot (by simp [hc])
  · intro w hin'
    rw [hareas]
    by_cases hwv : w = v
    · exact hwv ▸ hin
    · exact h.inside w (by simpa [hwv] using hin')
  · intro w hw f hf
    rw [hfresh.sets.page h.child_mem hw] at hf
    rw [hfresh.sets.maps hfresh.env.pgdirs h.child_mem hv, hfresh.frame]
    by_cases hwv : w = v
    · rw [if_pos ⟨rfl, hwv⟩, hfresh.frame] at hf
      have hempty : t.maps f = ∅ := by
        cases hf
        exact Finset.not_nonempty_iff_eq_empty.1 fun hc => by
          have hdata := hframes.data_iff.2 hc
          rw [hfresh.was] at hdata
          cases hdata
      rw [if_pos hf, hempty, hwv]
      rfl
    · rw [if_neg fun hc => hwv hc.2] at hf
      have hfp : some page ≠ some f := by
        intro hc
        cases hc
        have hdata := hframes.data d w page h.child_mem hw hf
        rw [hfresh.was] at hdata
        cases hdata
      rw [if_neg hfp, h.own w hw f hf, Finset.erase_eq_of_notMem]
      simpa using fun hc => hwv hc.symm
  · intro f hf
    have hf' : kind' f = FrameKind.data := (Copied.kind_eq (by simp [hf]) huses).trans hf
    rw [hdataKeep f hf', h.mem f hf]

/-! ## copy_range -/

/-- A refused request for a table of the child. -/
theorem Copied.refuse {x : Outcome (Int × Vm)} (h : Copied kind s₀ source d met t)
    (hr : (∃ i, r = Request.dir i) ∨ ∃ sl, r = Request.table sl)
    (hx : x = if t.swapInitOk then panic else done (-eNoMem, t)) : Refused kind s₀ source d met r x := by
  have hsoft : Soft s₀ r ↔ s₀.swapInitOk = false := by rcases hr with ⟨i, rfl⟩ | ⟨sl, rfl⟩ <;> rfl
  unfold Refused
  rw [hsoft, hx, h.swapInitOk]
  by_cases hswap : s₀.swapInitOk = true
  · right
    simp [hswap]
  · left
    exact ⟨by simpa using hswap, -eNoMem, t, eNoMem_ne_zero, if_neg hswap, h⟩

theorem grants_page (hr : r.TakesPage = true) :
    Grants s mmOk kmallocOk met r ↔ s.pmm.pick (s.freeAfter met) ≠ none := by
  cases r <;> first | rfl | cases hr

/-- `copy_range` for one page, where the child has its tables. -/
theorem copyPage_serves_page (hs₀ : Frames kind s₀) (hsource : source ∈ s₀.pgdirs)
    (h : Copied kind s₀ source d met t) (hla : la < userTop)
    (hvalid : (s₀.pte source (la / pgSize)).Valid) (hin : InVmas (areasOf met) (la / pgSize))
    (hnew : Request.page (la / pgSize) ∉ met) (htable : Request.table (la / ptSize) ∈ met) :
    Serves (Grants s₀ mmOk kmallocOk) (Copies kind s₀ source d) (Refused kind s₀ source d) met
      [Request.page (la / pgSize)] (copyPage t d la (s₀.pte source (la / pgSize))) := by
  obtain ⟨kind', hframes, huses⟩ := h.frames
  have hsl := div_lt_tables hla
  have hv := div_lt_pages hla
  let g := ptePpn (s₀.pte source (la / pgSize))
  have hframe : (s₀.pte source (la / pgSize)).frame = some g := Pte.frame_eq_some.2 ⟨hvalid, rfl⟩
  have hgdata : kind g = FrameKind.data := hs₀.data source _ _ hsource hv hframe
  have hglt : g < npage := hs₀.lt_npage (by simp [hgdata])
  obtain ⟨p, hpt⟩ := Option.ne_none_iff_exists'.1 ((h.tables _ hsl).2 htable)
  cases hpick : t.pmm.pick t.free with
  | none =>
      refine Serves.stop (by rw [grants_page rfl, ← h.pick, hpick]; simp) (Or.inr ⟨id, ?_⟩)
      unfold copyPage
      rw [getPte_of_pt hframes h.child_mem hla hpt, bind_done]
      dsimp only
      rw [pte2page_eq hframe hglt, bind_done, allocPage_none hpick]
      split <;> rfl
  | some page =>
      have hpage := t.pmm.pick_mem _ _ hpick
      obtain ⟨u, hu, hfresh⟩ := pageInsert_fresh (t.mem (ptePpn (s₀.pte source (la / pgSize))))
        (userPerm (s₀.pte source (la / pgSize))) hframes h.child_mem hla hpt hpage
      refine Serves.cons (by rw [grants_page rfl, ← h.pick, hpick]; simp) (Serves.nil (a := (0, u)) ?_ ⟨rfl, ?_⟩)
      · unfold copyPage
        rw [getPte_of_pt hframes h.child_mem hla hpt, bind_done]
        dsimp only
        rw [pte2page_eq hframe hglt, bind_done, allocPage_some hpick, bind_done]
        dsimp only
        rw [hu]
        rfl
      · exact h.addPage hs₀ hsource hframes huses hv hframe rfl hin hnew hpick hfresh

/-- A new directory does not change what `copy_range` does next. -/
theorem copyPage_newDir (pte : Pte) (h : Frames kind t) (hd : d ∈ t.pgdirs) (hla : la < userTop)
    (hnone : t.next d (la / ptSize / nPteEntry) = none) :
    copyPage t d la pte = match t.pmm.pick t.free with
      | some page => copyPage (t.newTable page d (la / ptSize / nPteEntry)) d la pte
      | none => if t.swapInitOk then panic else done (-eNoMem, t) := by
  unfold copyPage
  rw [getPte_newDir h hd hla hnone]
  cases hpick : t.pmm.pick t.free with
  | none =>
      dsimp only
      split <;> rfl
  | some page => rfl

theorem copyPage_newTable {q : Nat} (pte : Pte) (h : Frames kind t) (hd : d ∈ t.pgdirs)
    (hla : la < userTop) (hq : t.next d (la / ptSize / nPteEntry) = some q)
    (hnone : t.next q (la / ptSize % nPteEntry) = none) :
    copyPage t d la pte = match t.pmm.pick t.free with
      | some page => copyPage (t.newTable page q (la / ptSize % nPteEntry)) d la pte
      | none => if t.swapInitOk then panic else done (-eNoMem, t) := by
  have hsl := div_lt_tables hla
  unfold copyPage
  rw [getPte_newTable h hd hla hq hnone]
  cases hpick : t.pmm.pick t.free with
  | none =>
      dsimp only
      split <;> rfl
  | some page =>
      have hpage := t.pmm.pick_mem _ _ hpick
      have hframes := h.newTable hd hsl hq hnone hpage
      have hpt := (h.newTable_adds hd hsl hq hnone hpage).pt d hd _ hsl
      rw [if_pos ⟨rfl, rfl⟩] at hpt
      dsimp only
      rw [getPte_of_pt hframes hd hla hpt]

/-- `copy_range` for one page. -/
theorem copyPage_serves (mmOk : Bool) (kmallocOk : Vma → Bool) (hs₀ : Frames kind s₀) (hsource : source ∈ s₀.pgdirs)
    (h : Copied kind s₀ source d met t) (hla : la < userTop)
    (hvalid : (s₀.pte source (la / pgSize)).Valid) (hin : InVmas (areasOf met) (la / pgSize))
    (hnew : Request.page (la / pgSize) ∉ met) :
    Serves (Grants s₀ mmOk kmallocOk) (Copies kind s₀ source d) (Refused kind s₀ source d) met
      (pageRequests met (la / pgSize)) (copyPage t d la (s₀.pte source (la / pgSize))) := by
  have hsl := div_lt_tables hla
  have hi := div_lt_userDirs hsl
  -- with the directory
  have hwithDir : ∀ {met : List Request} {t : Vm}, Copied kind s₀ source d met t →
      InVmas (areasOf met) (la / pgSize) → Request.page (la / pgSize) ∉ met →
      Request.dir (la / ptSize / nPteEntry) ∈ met →
      Serves (Grants s₀ mmOk kmallocOk) (Copies kind s₀ source d) (Refused kind s₀ source d) met
        ((if Request.table (la / ptSize) ∈ met then [] else [Request.table (la / ptSize)]) ++
          [Request.page (la / pgSize)]) (copyPage t d la (s₀.pte source (la / pgSize))) := by
    intro met t h hin hnew hdir
    by_cases htable : Request.table (la / ptSize) ∈ met
    · rw [if_pos htable]
      exact copyPage_serves_page hs₀ hsource h hla hvalid hin hnew htable
    · rw [if_neg htable]
      obtain ⟨kind', hframes, huses⟩ := h.frames
      obtain ⟨q, hq⟩ := Option.ne_none_iff_exists'.1 ((h.dirs _ hi).2 hdir)
      have hnone : t.next q (la / ptSize % nPteEntry) = none := by
        by_contra hc
        refine htable ((h.tables _ hsl).1 ?_)
        rwa [Vm.pt, hq]
      have heq := copyPage_newTable (s₀.pte source (la / pgSize)) hframes h.child_mem hla hq hnone
      cases hpick : t.pmm.pick t.free with
      | none =>
          rw [hpick] at heq
          exact Serves.stop (by rw [grants_page rfl, ← h.pick, hpick]; simp)
            (h.refuse (Or.inr ⟨_, rfl⟩) heq)
      | some page =>
          rw [hpick] at heq
          rw [heq]
          refine Serves.cons (by rw [grants_page rfl, ← h.pick, hpick]; simp) ?_
          refine copyPage_serves_page hs₀ hsource (h.newTable hla hdir htable hq hpick) hla hvalid ?_ ?_ ?_
          · rw [areasOf_append]
            exact hin
          · simpa using hnew
          · simp
  unfold pageRequests
  rw [div_ptSize]
  by_cases hdir : Request.dir (la / ptSize / nPteEntry) ∈ met
  · rw [if_pos hdir]
    exact hwithDir h hin hnew hdir
  · rw [if_neg hdir]
    obtain ⟨kind', hframes, huses⟩ := h.frames
    have hnone : t.next d (la / ptSize / nPteEntry) = none := by
      by_contra hc
      exact hdir ((h.dirs _ hi).1 hc)
    have heq := copyPage_newDir (s₀.pte source (la / pgSize)) hframes h.child_mem hla hnone
    cases hpick : t.pmm.pick t.free with
    | none =>
        rw [hpick] at heq
        exact Serves.stop (by rw [grants_page rfl, ← h.pick, hpick]; simp)
          (h.refuse (Or.inl ⟨_, rfl⟩) heq)
    | some page =>
        rw [hpick] at heq
        rw [heq]
        refine Serves.cons (by rw [grants_page rfl, ← h.pick, hpick]; simp) ?_
        have hrest := hwithDir (h.newDir hla hdir hpick) (by rw [areasOf_append]; exact hin)
          (by simpa using hnew) (by simp)
        have hmem : Request.table (la / ptSize) ∈ met ++ [Request.dir (la / ptSize / nPteEntry)] ↔
            Request.table (la / ptSize) ∈ met := by simp
        simp only [hmem] at hrest
        exact hrest

theorem mem_presentPages {start stop : Nat} :
    w ∈ s.presentPages d start stop ↔ Between start stop w ∧ (s.pte d w).Valid := by
  unfold Vm.presentPages Between
  rw [List.mem_filter, List.mem_range'_1]
  simp only [decide_eq_true_eq]
  refine and_congr_left fun _ => ?_
  omega

theorem presentPages_nil {start stop : Nat} (h : ∀ w, Between start stop w → ¬ (s.pte d w).Valid) :
    s.presentPages d start stop = [] := by
  rw [List.eq_nil_iff_forall_not_mem]
  intro w hw
  obtain ⟨hrange, hvalid⟩ := mem_presentPages.1 hw
  exact h w hrange hvalid

theorem presentPages_append {start mid stop : Nat} (hmid : start / pgSize ≤ mid / pgSize)
    (hstop : mid / pgSize ≤ stop / pgSize) :
    s.presentPages d start stop = s.presentPages d start mid ++ s.presentPages d mid stop := by
  unfold Vm.presentPages
  rw [← List.filter_append]
  congr 1
  have happend := List.range'_append_1 (s := start / pgSize) (m := mid / pgSize - start / pgSize)
    (n := stop / pgSize - mid / pgSize)
  rw [Nat.add_sub_cancel' hmid] at happend
  rw [happend]
  congr 1
  omega

/-- The pages that are not present are skipped. -/
theorem presentPages_skip {start mid stop : Nat} (hle : start ≤ mid)
    (h : ∀ w, Between start mid w → Between start stop w → ¬ (s.pte d w).Valid) :
    s.presentPages d start stop = s.presentPages d mid stop := by
  have hdiv : start / pgSize ≤ mid / pgSize := Nat.div_le_div_right hle
  by_cases hmid : mid / pgSize ≤ stop / pgSize
  · rw [presentPages_append hdiv hmid, presentPages_nil, List.nil_append]
    intro w hw
    exact h w hw ⟨hw.1, hw.2.trans_le hmid⟩
  · rw [presentPages_nil, presentPages_nil]
    · intro w hw
      exact absurd (hw.1.trans_lt hw.2).le hmid
    · intro w hw
      exact h w ⟨hw.1, hw.2.trans (Nat.lt_of_not_le hmid)⟩ hw

theorem presentPages_cons {start stop : Nat} (hstart : start % pgSize = 0) (hstop : stop % pgSize = 0)
    (hlt : start < stop) (hvalid : (s.pte d (start / pgSize)).Valid) :
    s.presentPages d start stop = start / pgSize :: s.presentPages d (start + pgSize) stop := by
  have hnext : (start + pgSize) / pgSize = start / pgSize + 1 := Nat.add_div_right _ (by decide)
  have hlen : stop / pgSize - start / pgSize = stop / pgSize - (start / pgSize + 1) + 1 := by
    unfold pgSize at *
    omega
  unfold Vm.presentPages
  rw [hnext, hlen, List.range'_succ, List.filter_cons, if_pos (by simpa using hvalid)]

/-- The requests for a page bring no area, and no other page. -/
theorem pageRequests_facts (met : List Request) (w : Nat) : areasOf (met ++ pageRequests met w) = areasOf met ∧
    ∀ v, Request.page v ∈ met ++ pageRequests met w ↔ Request.page v ∈ met ∨ v = w := by
  unfold pageRequests
  refine ⟨?_, fun v => ?_⟩
  · rw [areasOf_append, areasOf_append, areasOf_append]
    split <;> split <;> rfl
  · simp only [List.mem_append, List.mem_singleton, Request.page.injEq]
    split <;> split <;> simp

theorem slot_of_between {start : Nat} (hstart : start % pgSize = 0)
    (hw : Between start (roundDown (start + ptSize) ptSize) w) : w / nPteEntry = start / ptSize := by
  obtain ⟨hlow, hhigh⟩ := hw
  rw [(next_address hstart).2.2] at hhigh
  unfold pgSize ptSize nPteEntry at *
  omega

theorem Between.lt_userPages {start stop : Nat} (hw : Between start stop w) (htop : stop ≤ userTop) :
    w < userPages := by
  obtain ⟨-, hend⟩ := hw
  unfold userTop pgSize userPages at *
  omega

theorem Between.start_lt {start stop : Nat} (hw : Between start stop w) : start < stop := by
  obtain ⟨hlow, hhigh⟩ := hw
  by_contra hc
  exact absurd (hlow.trans_lt hhigh) (Nat.not_lt.2 (Nat.div_le_div_right (Nat.le_of_not_lt hc)))

theorem between_first {start stop : Nat} (hstart : start % pgSize = 0) (hstop : stop % pgSize = 0)
    (hlt : start < stop) : Between start stop (start / pgSize) := by
  refine ⟨le_rfl, ?_⟩
  unfold pgSize at *
  omega

theorem between_one {start : Nat} (hw : Between start (start + pgSize) w) : w = start / pgSize := by
  obtain ⟨hlow, hhigh⟩ := hw
  rw [Nat.add_div_right _ (by decide)] at hhigh
  omega


/-- `copy_range` serves the pages of its range that are present. -/
theorem copyLoop_serves {stop : Nat} (hs₀ : Frames kind s₀) (hsource : source ∈ s₀.pgdirs)
    (hstop : stop % pgSize = 0) (htop : stop ≤ userTop) (bound : Nat) :
    ∀ {met : List Request} {t : Vm} {start : Nat}, Copied kind s₀ source d met t → start % pgSize = 0 →
    start < stop → stop ≤ start + bound * pgSize →
    (∀ w, Between start stop w → InVmas (areasOf met) w ∧ Request.page w ∉ met) →
    Serves (Grants s₀ mmOk kmallocOk) (Copies kind s₀ source d) (Refused kind s₀ source d) met
      (pagesRequests met (s₀.presentPages source start stop)) (copyLoop bound t d source start stop) := by
  induction bound with
  | zero =>
      intro met t start _ _ hlt hbound
      omega
  | succ bound ih =>
      intro met t start h hstart hlt hbound hall
      obtain ⟨kind', hframes, huses⟩ := h.frames
      have hla : start < userTop := hlt.trans_le htop
      have hv := div_lt_pages hla
      have hpage : (start + pgSize) % pgSize = 0 := by simpa using hstart
      have hfirst := between_first hstart hstop hlt
      have hotherPte : ∀ w < userPages, t.pte source w = s₀.pte source w := h.others source hsource
      -- what follows when the address goes on to `start'` and nothing has been copied
      have hskip : ∀ start', start' % pgSize = 0 → start + pgSize ≤ start' →
          (∀ w, Between start start' w → Between start stop w → ¬ (s₀.pte source w).Valid) →
          copyStep t d source start = done (0, t, start') →
          Serves (Grants s₀ mmOk kmallocOk) (Copies kind s₀ source d) (Refused kind s₀ source d) met
            (pagesRequests met (s₀.presentPages source start stop))
            (copyLoop (bound + 1) t d source start stop) := by
        intro start' hstart' hnext hinvalid hstep
        rw [presentPages_skip ((Nat.le_add_right _ _).trans hnext) hinvalid]
        unfold copyLoop
        rw [hstep, bind_done]
        dsimp only
        have hpos : start' ≠ 0 := by
          have hsize : 0 < pgSize := by decide
          omega
        rw [if_neg (by simp)]
        by_cases hmore : start' < stop
        · rw [if_pos ⟨hpos, hmore⟩]
          refine ih h hstart' hmore (by rw [Nat.succ_mul] at hbound; omega) fun w hw => hall w ⟨?_, hw.2⟩
          exact (Nat.div_le_div_right (by omega)).trans hw.1
        · rw [if_neg fun hc => hmore hc.2, presentPages_nil]
          · exact Serves.nil rfl ⟨rfl, h⟩
          · intro w hw
            exact absurd hw.start_lt hmore
      cases hpt : t.pt source (start / ptSize) with
      | none =>
          obtain ⟨h1, h2, -⟩ := next_address hstart
          refine hskip _ h1 h2 ?_ ?_
          · intro w hw hrange
            rw [← hotherPte w (hrange.lt_userPages htop),
              Vm.pte_of_none ((slot_of_between hstart hw).symm ▸ hpt)]
            exact not_valid_zero
          · unfold copyStep
            rw [getPte_false hframes (h.old_mem hsource) hla, hpt]
            rfl
      | some p =>
          have hentry : t.mem p (start / pgSize % nPteEntry) = s₀.pte source (start / pgSize) := by
            rw [← hotherPte _ hv, Vm.pte_of_pt (by rw [div_ptSize]; exact hpt)]
          have hstep : copyStep t d source start =
              if (s₀.pte source (start / pgSize)).Valid then
                copyPage t d start (s₀.pte source (start / pgSize)) >>= fun r => pure (r.1, r.2, start + pgSize)
              else pure (0, t, start + pgSize) := by
            unfold copyStep
            rw [getPte_false hframes (h.old_mem hsource) hla, hpt, ← hentry]
            rfl
          by_cases hvalid : (s₀.pte source (start / pgSize)).Valid
          · obtain ⟨hin, hnew⟩ := hall _ hfirst
            rw [if_pos hvalid] at hstep
            rw [presentPages_cons hstart hstop hlt hvalid, pagesRequests]
            have hserves := copyPage_serves mmOk kmallocOk hs₀ hsource h hla hvalid
              hin hnew
            have hloop : copyLoop (bound + 1) t d source start stop =
                copyPage t d start (s₀.pte source (start / pgSize)) >>= fun r =>
                  if r.1 ≠ 0 then pure (r.1, r.2)
                  else if start + pgSize ≠ 0 ∧ start + pgSize < stop then
                    copyLoop bound r.2 d source (start + pgSize) stop
                  else pure (0, r.2) := by
              conv_lhs => unfold copyLoop
              rw [hstep]
              cases copyPage t d start (s₀.pte source (start / pgSize)) with
              | done r =>
                  obtain ⟨ret, u⟩ := r
                  simp only [bind_done, pure_eq_done]
              | panic => simp only [bind_panic]
              | wrap => simp only [bind_wrap]
              | fuel => simp only [bind_fuel]
            rw [hloop]
            refine hserves.bind (fun r hr => ?_) fun m q hbad => ?_
            · obtain ⟨ret, u⟩ := r
              obtain ⟨hret, hu⟩ := hr
              dsimp only at hret hu ⊢
              subst hret
              obtain ⟨hareas, hpages⟩ := pageRequests_facts met (start / pgSize)
              have hpos : start + pgSize ≠ 0 := by
                have hsize : 0 < pgSize := by decide
                omega
              rw [if_neg (by simp)]
              by_cases hmore : start + pgSize < stop
              · rw [if_pos ⟨hpos, hmore⟩]
                refine ih hu hpage hmore (by rw [Nat.succ_mul] at hbound; omega) fun w hw => ?_
                have hw' : Between start stop w :=
                  ⟨(Nat.div_le_div_right (Nat.le_add_right _ _)).trans hw.1, hw.2⟩
                rw [hareas, hpages]
                refine ⟨(hall w hw').1, ?_⟩
                rintro (hc | rfl)
                · exact (hall w hw').2 hc
                · have hle := hw.1
                  rw [Nat.add_div_right _ (by decide)] at hle
                  omega
              · rw [if_neg fun hc => hmore hc.2, presentPages_nil]
                · exact Serves.nil rfl ⟨rfl, hu⟩
                · intro w hw
                  exact absurd hw.start_lt hmore
            · rcases hbad with ⟨hsoft, ret, u, hret, hx, hu⟩ | ⟨hhard, hx⟩
              · refine Or.inl ⟨hsoft, ret, u, hret, ?_, hu⟩
                rw [hx, bind_done, if_pos hret]
                rfl
              · exact Or.inr ⟨hhard, by rw [hx, bind_panic]⟩
          · rw [if_neg hvalid] at hstep
            refine hskip _ hpage le_rfl ?_ hstep
            intro w hw _
            exact between_one hw ▸ hvalid

/-! ## dup_mmap -/

theorem pagesRequests_facts (ws : List Nat) : ∀ met : List Request,
    areasOf (met ++ pagesRequests met ws) = areasOf met ∧
      ∀ v, Request.page v ∈ met ++ pagesRequests met ws ↔ Request.page v ∈ met ∨ v ∈ ws := by
  induction ws with
  | nil =>
      intro met
      simp [pagesRequests]
  | cons w ws ih =>
      intro met
      obtain ⟨hareas, hpages⟩ := pageRequests_facts met w
      obtain ⟨hareas', hpages'⟩ := ih (met ++ pageRequests met w)
      rw [pagesRequests, ← List.append_assoc]
      refine ⟨hareas'.trans hareas, fun v => ?_⟩
      rw [hpages', hpages, List.mem_cons, or_assoc]

/-- The areas and the pages that are asked for. -/
theorem areasRequests_facts (s : Vm) (source : Nat) : ∀ (vmas : List Vma) (met : List Request),
    areasOf (met ++ areasRequests s source met vmas) = vmas.reverse ++ areasOf met ∧
      ∀ v, Request.page v ∈ met ++ areasRequests s source met vmas ↔
        Request.page v ∈ met ∨ ∃ vma ∈ vmas, v ∈ s.presentPages source vma.start vma.stop
  | [], met => by simp [areasRequests]
  | vma :: vmas, met => by
      obtain ⟨hareas, hpages⟩ := pagesRequests_facts (s.presentPages source vma.start vma.stop)
        (met ++ [Request.area vma])
      rw [areasRequests, ← List.append_assoc]
      obtain ⟨hareas', hpages'⟩ := areasRequests_facts s source vmas (met ++
        Request.area vma :: pagesRequests (met ++ [Request.area vma])
          (s.presentPages source vma.start vma.stop))
      rw [List.append_assoc, List.singleton_append] at hareas
      refine ⟨?_, fun v => ?_⟩
      · rw [hareas', hareas, areasOf_append, List.reverse_cons, List.append_assoc]
        rfl
      · rw [List.append_assoc, List.singleton_append] at hpages
        rw [hpages', hpages]
        simp [or_assoc]

/-- An area before all others of the list is inserted in front. -/
theorem insertVmaStruct_front {vmas : List Vma} (hlt : vma.start < vma.stop)
    (hall : ∀ v ∈ vmas, vma.stop ≤ v.start ∧ v.start < v.stop) :
    insertVmaStruct vmas vma = done (vma :: vmas) := by
  cases vmas with
  | nil =>
      unfold insertVmaStruct vmasBefore vmasAfter
      rw [assert_of hlt]
      rfl
  | cons v vmas =>
      obtain ⟨hle, hlt'⟩ := hall v List.mem_cons_self
      have hnot : ¬ v.start ≤ vma.start := Nat.not_le.2 (hlt.trans_le hle)
      have hbefore : vmasBefore (v :: vmas) vma = [] := by
        unfold vmasBefore
        rw [List.takeWhile_cons, if_neg (by simpa using hnot)]
      have hafter : vmasAfter (v :: vmas) vma = v :: vmas := by
        unfold vmasAfter
        rw [List.dropWhile_cons, if_neg (by simpa using hnot)]
      unfold insertVmaStruct
      rw [assert_of hlt, hbefore, hafter]
      simp only [List.getLast?_nil, Option.elim_none, List.head?_cons, Option.elim_some, checkVmaOverlap,
        assert_of hlt, assert_of hle, assert_of hlt', bind_done, pure_eq_done, List.nil_append]

/-- The structure of an area of the child. -/
theorem Copied.addArea (h : Copied kind s₀ source d met t) :
    Copied kind s₀ source d (met ++ [Request.area vma]) (t.setMmap d (vma :: areasOf met)) := by
  have hareas : areasOf (met ++ [Request.area vma]) = vma :: areasOf met := by
    rw [areasOf_append]
    rfl
  have hmem : ∀ r, r ≠ Request.area vma → (r ∈ met ++ [Request.area vma] ↔ r ∈ met) := by
    intro r hr
    simp [hr]
  obtain ⟨kind', hframes, huses⟩ := h.frames
  obtain ⟨hpool, hfree, hroot, hdir, htable, hdata, href, hunref, hboot⟩ := hframes
  refine ⟨h.child, h.pmm, h.swapInitOk, h.swap, h.pgdirs, ?_, ?_,
    ⟨kind', ⟨hpool, hfree, hroot, hdir, htable, hdata, href, hunref, hboot⟩, huses⟩, ?_, ?_, ?_, h.others,
    ?_, ?_, ?_, h.own, h.mem⟩
  · change Function.update t.mmap d _ = _
    rw [h.mmap, hareas, Function.update_idem]
  · rw [freeAfter_of_not rfl]
    exact h.free
  · intro i hi
    rw [hmem _ (by simp)]
    exact h.dirs i hi
  · intro sl hsl
    rw [hmem _ (by simp)]
    exact h.tables sl hsl
  · intro sl hsl hin
    rw [hmem _ (by simp)] at hin ⊢
    exact h.tableDirs sl hsl hin
  · intro w hw hin
    rw [hmem _ (by simp)] at hin
    exact h.copy w hw hin
  · intro w hw hnot
    rw [hmem _ (by simp)] at hnot
    exact h.blank w hw hnot
  · intro w hin
    rw [hmem _ (by simp)] at hin
    rw [hareas]
    exact (h.inside w hin).mono fun v hv => List.mem_cons_of_mem _ hv

/-- The areas of a list in descending order, after those of another list. -/
structure Descending (vmas : List Vma) (after : List Vma) : Prop where
  ok : ∀ v ∈ vmas, v.Ok
  okAfter : ∀ v ∈ after, v.Ok
  sorted : vmas.Pairwise fun u v => v.stop ≤ u.start
  below : ∀ v ∈ vmas, ∀ u ∈ after, v.stop ≤ u.start

/-- `dup_mmap` serves the requests of its areas. -/
theorem dupLoop_serves (mmOk : Bool) (kmallocOk : Vma → Bool) (hs₀ : Frames kind s₀) (hsource : source ∈ s₀.pgdirs) :
    ∀ {vmas : List Vma} {met : List Request} {t : Vm}, Copied kind s₀ source d met t →
    Descending vmas (areasOf met) →
    Serves (Grants s₀ mmOk kmallocOk) (Copies kind s₀ source d) (Refused kind s₀ source d) met
      (areasRequests s₀ source met vmas) (dupLoop t d source kmallocOk vmas)
  | [], met, t, h, _ => Serves.nil rfl ⟨rfl, h⟩
  | vma :: vmas, met, t, h, hdesc => by
      obtain ⟨hstart, hstop, huser⟩ := hdesc.ok vma List.mem_cons_self
      have hbelow := hdesc.below vma List.mem_cons_self
      rw [areasRequests]
      by_cases hkm : kmallocOk vma = true
      · have hfront : insertVmaStruct (t.mmap d) vma = done (vma :: areasOf met) := by
          rw [h.mmap, Function.update_self]
          exact insertVmaStruct_front huser.2.1 fun v hv => ⟨hbelow v hv, (hdesc.okAfter v hv).2.2.2.1⟩
        have hadd : Copied kind s₀ source d (met ++ [Request.area vma]) (t.setMmap d (vma :: areasOf met)) :=
          h.addArea
        have hareas : areasOf (met ++ [Request.area vma]) = vma :: areasOf met := by
          rw [areasOf_append]
          rfl
        have hcopy : Serves (Grants s₀ mmOk kmallocOk) (Copies kind s₀ source d) (Refused kind s₀ source d)
            (met ++ [Request.area vma])
            (pagesRequests (met ++ [Request.area vma]) (s₀.presentPages source vma.start vma.stop))
            (copyRange (t.setMmap d (vma :: areasOf met)) d source vma.start vma.stop) := by
          unfold copyRange
          rw [assert_of ⟨hstart, hstop⟩, bind_done, assert_of huser, bind_done]
          refine copyLoop_serves hs₀ hsource hstop huser.2.2 (vma.stop / pgSize) hadd hstart huser.2.1 ?_
            fun w hw => ?_
          · have hdiv := Nat.div_add_mod' vma.stop pgSize
            omega
          · refine ⟨⟨vma, by rw [hareas]; exact List.mem_cons_self, hw⟩, fun hc => ?_⟩
            have hc' : Request.page w ∈ met := by simpa using hc
            obtain ⟨u, hu, hlow, -⟩ := h.inside w hc'
            have hle := hbelow u hu
            exact absurd (hw.2.trans_le (Nat.div_le_div_right hle)) (Nat.not_lt.2 hlow)
        have hloop : dupLoop t d source kmallocOk (vma :: vmas) =
            copyRange (t.setMmap d (vma :: areasOf met)) d source vma.start vma.stop >>= fun r =>
              if r.1 ≠ 0 then pure (-eNoMem, r.2) else dupLoop r.2 d source kmallocOk vmas := by
          rw [dupLoop, if_pos hkm, hfront]
          rfl
        rw [hloop, ← List.singleton_append, List.append_assoc]
        refine Serves.cons hkm (hcopy.bind (fun r hr => ?_) fun m q hbad => ?_)
        · obtain ⟨ret, u⟩ := r
          obtain ⟨hret, hu⟩ := hr
          dsimp only at hret hu ⊢
          subst hret
          rw [if_neg (by simp)]
          obtain ⟨hareas', -⟩ := pagesRequests_facts (s₀.presentPages source vma.start vma.stop)
            (met ++ [Request.area vma])
          rw [List.append_assoc, List.singleton_append] at hu hareas' ⊢
          refine dupLoop_serves mmOk kmallocOk hs₀ hsource hu ⟨fun v hv => hdesc.ok v (List.mem_cons_of_mem _ hv), ?_,
            (List.pairwise_cons.1 hdesc.sorted).2, ?_⟩
          · rw [hareas', hareas]
            intro v hv
            rcases List.mem_cons.1 hv with rfl | hv
            · exact ⟨hstart, hstop, huser⟩
            · exact hdesc.okAfter v hv
          · rw [hareas', hareas]
            intro v hv u hu
            rcases List.mem_cons.1 hu with rfl | hu
            · exact (List.pairwise_cons.1 hdesc.sorted).1 v hv
            · exact hdesc.below v (List.mem_cons_of_mem _ hv) u hu
        · rcases hbad with ⟨hsoft, ret, u, hret, hx, hu⟩ | ⟨hhard, hx⟩
          · refine Or.inl ⟨hsoft, -eNoMem, u, eNoMem_ne_zero, ?_, hu⟩
            rw [hx, bind_done, if_pos hret]
            rfl
          · exact Or.inr ⟨hhard, by rw [hx, bind_panic]⟩
      · have hloop : dupLoop t d source kmallocOk (vma :: vmas) = done (-eNoMem, t) := by
          rw [dupLoop, if_neg hkm]
          rfl
        rw [hloop]
        exact Serves.stop hkm (Or.inl ⟨trivial, -eNoMem, t, eNoMem_ne_zero, rfl, h⟩)

end TriOS
