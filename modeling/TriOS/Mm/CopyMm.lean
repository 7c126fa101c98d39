import TriOS.Mm.ForkRuns

/-!
# CopyMm — when a fork is right

A fork is right exactly where `ForkFits` says. Three things stand in its way: a page that is swapped out is
not copied, running out of memory at the copy of a page stops the machine, and after an error the tables of
the child come back only as far as the areas that it has by then are tidy.
-/

namespace TriOS

open Outcome Requests Transition

variable {kind kind' : Nat → FrameKind} {s₀ s t u : Vm} {source d e f g i v w sl page : Nat}
  {met rest : List Request} {r : Request} {vma : Vma} {vmas : List Vma} {mmOk : Bool}
  {kmallocOk : Vma → Bool}

/-! ## What is in the list -/

/-- A request that the copy of the page `w` makes. -/
def Request.For (r : Request) (w : Nat) : Prop :=
  r = Request.dir (w / nPteEntry / nPteEntry) ∨ r = Request.table (w / nPteEntry) ∨ r = Request.page w

theorem mem_pageRequests (h : r ∈ pageRequests met w) : r.For w := by
  unfold pageRequests at h
  rw [List.mem_append, List.mem_append, List.mem_singleton] at h
  rcases h with h | h | h
  · split at h
    · cases h
    · exact Or.inl (List.mem_singleton.1 h)
  · split at h
    · cases h
    · exact Or.inr (Or.inl (List.mem_singleton.1 h))
  · exact Or.inr (Or.inr h)

theorem mem_pagesRequests {ws : List Nat} : ∀ {met : List Request}, r ∈ pagesRequests met ws →
    ∃ w ∈ ws, r.For w := by
  induction ws with
  | nil =>
      intro met h
      cases h
  | cons w ws ih =>
      intro met h
      rw [pagesRequests, List.mem_append] at h
      rcases h with h | h
      · exact ⟨w, List.mem_cons_self, mem_pageRequests h⟩
      · obtain ⟨v, hv, hr⟩ := ih h
        exact ⟨v, List.mem_cons_of_mem _ hv, hr⟩

theorem mem_areasRequests : ∀ {vmas : List Vma} {met : List Request}, r ∈ areasRequests s source met vmas →
    ∃ vma ∈ vmas, r = Request.area vma ∨ ∃ w, Between vma.start vma.stop w ∧ r.For w
  | [], met, h => by cases h
  | vma :: vmas, met, h => by
      rw [areasRequests, List.mem_append, List.mem_cons] at h
      rcases h with (h | h) | h
      · exact ⟨vma, List.mem_cons_self, Or.inl h⟩
      · obtain ⟨w, hw, hr⟩ := mem_pagesRequests h
        exact ⟨vma, List.mem_cons_self, Or.inr ⟨w, (mem_presentPages.1 hw).1, hr⟩⟩
      · obtain ⟨v, hv, hr⟩ := mem_areasRequests h
        exact ⟨v, List.mem_cons_of_mem _ hv, hr⟩

/-- What a fork asks for lies in the areas of the parent. -/
structure Request.Inside (s : Vm) (source : Nat) (r : Request) : Prop where
  area : ∀ vma, r = Request.area vma → vma ∈ s.mmap source
  dir : ∀ i, r = Request.dir i → i < userDirs
  table : ∀ sl, r = Request.table sl → sl < userTables
  page : ∀ w, r = Request.page w → w < userPages

theorem Request.For.inside (h : r.For w) (hw : w < userPages) : r.Inside s source := by
  have htable := div_lt_userTables hw
  rcases h with rfl | rfl | rfl
  · refine ⟨?_, ?_, ?_, ?_⟩ <;> rintro x hx <;> cases hx
    exact div_lt_userDirs htable
  · refine ⟨?_, ?_, ?_, ?_⟩ <;> rintro x hx <;> cases hx
    exact htable
  · refine ⟨?_, ?_, ?_, ?_⟩ <;> rintro x hx <;> cases hx
    exact hw

theorem Vm.Parent.inside (hp : s.Parent source) (h : r ∈ forkRequests s source) : r.Inside s source := by
  unfold forkRequests at h
  rw [List.mem_cons, List.mem_cons] at h
  rcases h with rfl | rfl | h
  · refine ⟨?_, ?_, ?_, ?_⟩ <;> rintro x hx <;> cases hx
  · refine ⟨?_, ?_, ?_, ?_⟩ <;> rintro x hx <;> cases hx
  · obtain ⟨vma, hvma, hr⟩ := mem_areasRequests h
    rw [List.mem_reverse] at hvma
    rcases hr with rfl | ⟨w, hw, hr⟩
    · refine ⟨?_, ?_, ?_, ?_⟩ <;> rintro x hx <;> cases hx
      exact hvma
    · exact hr.inside (hw.lt_userPages (hp.ok vma hvma).2.2.2.2)

/-- The pages of the whole list are the present pages of the areas. -/
theorem mem_forkRequests_page :
    Request.page w ∈ forkRequests s source ↔ InVmas (s.mmap source) w ∧ (s.pte source w).Valid := by
  obtain ⟨-, hpages⟩ := areasRequests_facts s source (s.mmap source).reverse
    [Request.mm, Request.root]
  have happend : forkRequests s source =
      [Request.mm, Request.root] ++ areasRequests s source [Request.mm, Request.root]
        (s.mmap source).reverse := rfl
  rw [happend, hpages]
  constructor
  · rintro (hc | ⟨vma, hvma, hw⟩)
    · simp at hc
    · obtain ⟨hrange, hvalid⟩ := mem_presentPages.1 hw
      exact ⟨⟨vma, List.mem_reverse.1 hvma, hrange⟩, hvalid⟩
  · rintro ⟨⟨vma, hvma, hrange⟩, hvalid⟩
    exact Or.inr ⟨vma, List.mem_reverse.2 hvma, mem_presentPages.2 ⟨hrange, hvalid⟩⟩

theorem areasOf_forkRequests : areasOf (forkRequests s source) = s.mmap source := by
  obtain ⟨hareas, -⟩ := areasRequests_facts s source (s.mmap source).reverse
    [Request.mm, Request.root]
  rw [List.reverse_reverse] at hareas
  exact hareas.trans (List.append_nil _)

/-! ## The two conditions of `ForkFits` -/

theorem forkFits_granted (h : Granted (Grants s mmOk kmallocOk) [] (forkRequests s source)) :
    ForkFits s source mmOk kmallocOk ↔ s.AllIn source := by
  constructor
  · rintro (⟨-, hall⟩ | ⟨met, r, rest, hsplit, -, hr, -⟩)
    · exact hall
    · exact absurd (h.not_split hsplit) hr
  · exact fun hall => Or.inl ⟨h, hall⟩

theorem forkFits_refused (hsplit : forkRequests s source = met ++ r :: rest)
    (hmet : Granted (Grants s mmOk kmallocOk) [] met) (hr : ¬ Grants s mmOk kmallocOk met r) :
    ForkFits s source mmOk kmallocOk ↔
      Soft s r ∧ ∀ i, Request.dir i ∈ met → Tidy (tablesOf met) i (areasOf met) := by
  constructor
  · rintro (⟨hall, -⟩ | ⟨met', r', rest', hsplit', hmet', hr', hsoft, htidy⟩)
    · exact absurd (hall.not_split hsplit) hr
    · obtain ⟨rfl, rfl⟩ := first_unique hmet hr hmet' hr' (hsplit.symm.trans hsplit')
      exact ⟨hsoft, htidy⟩
  · rintro ⟨hsoft, htidy⟩
    exact Or.inr ⟨met, r, rest, hsplit, hmet, hr, hsoft, htidy⟩

/-! ## The child at its beginning and at its end -/

/-- A child that has its page directory. -/
theorem Frames.copied (h : Frames kind s) (hpick : s.pmm.pick s.free = some page) :
    Copied kind s source page [Request.mm, Request.root] (s.newRoot page) := by
  have hpage := s.pmm.pick_mem _ _ hpick
  have hwas := (h.free page).1 hpage
  have hadds := h.newRoot_adds hpage
  refine ⟨hwas, rfl, rfl, rfl, rfl, rfl, ?_, ⟨_, h.newRoot hpage, ?_⟩, ?_, ?_, ?_, ?_, ?_, ?_, ?_, ?_, ?_⟩
  · change s.free.erase page = s.pmm.freeAfter s.free 1
    rw [PageAllocator.freeAfter, PageAllocator.freeAfter, hpick]
  · intro f
    by_cases hf : f = page
    · subst hf
      rw [Function.update_self]
      exact Or.inr ⟨hwas, Or.inl ⟨rfl, rfl⟩⟩
    · exact Or.inl (Function.update_of_ne hf _ _)
  · intro i hi
    simp [hadds.next i hi]
  · intro sl hsl
    simp [hadds.pt sl hsl]
  · intro sl _ hin
    simp at hin
  · exact fun e he w hw => hadds.walk.pte e he w hw
  · intro w _ hin
    simp at hin
  · exact fun w hw _ => hadds.pte w hw
  · intro w hin
    simp at hin
  · intro w hw f hf
    rw [Vm.page, hadds.pte w hw, Pte.frame_zero] at hf
    cases hf
  · intro g hg
    refine Function.update_of_ne ?_ _ _
    rintro rfl
    rw [hwas] at hg
    cases hg

theorem SpacesKept.rfl : SpacesKept s s :=
  ⟨fun _ _ => Eq.refl _, fun _ _ _ _ => Eq.refl _, fun _ _ _ _ _ _ => Eq.refl _, Eq.refl _⟩

/-- The entry of a copy has the permissions of the entry that is copied. -/
theorem pteCreate_valid_userPerm (ppn : Nat) {pte : Pte} (h : pte.Valid) :
    pteCreate ppn (pteV ||| (userPerm pte).bits) &&& pteUser = pte &&& pteUser := by
  have hsame : pteCreate ppn (pteV ||| (userPerm pte).bits) = pteCreate ppn (userPerm pte).bits := by
    unfold pteCreate
    rw [← UInt64.or_assoc, UInt64.or_assoc _ pteV pteV, UInt64.or_self]
  rw [hsame, pteCreate_userPerm ppn h]

theorem Copied.kept (h : Copied kind s₀ source d met t) (hs₀ : Frames kind s₀) : SpacesKept s₀ t := by
  refine ⟨?_, h.others, fun e he w hw f hf => h.mem f (hs₀.data e w f he hw hf), h.swap⟩
  intro e he
  rw [h.mmap, Function.update_of_ne (h.ne_child hs₀ he)]

/-- All requests have been granted: the child is a copy if nothing is swapped out. -/
theorem Copied.copyOf_iff (h : Copied kind s₀ source d (forkRequests s₀ source) t) (hs₀ : Frames kind s₀)
    (hp : s₀.Parent source) : CopyOf s₀ source t d ↔ s₀.AllIn source := by
  have huser : ∀ w, InVmas (s₀.mmap source) w → w < userPages := by
    rintro w ⟨vma, hvma, hw⟩
    exact hw.lt_userPages (hp.ok vma hvma).2.2.2.2
  have hblank : ∀ w, InVmas (s₀.mmap source) w → ¬ (s₀.pte source w).Valid → t.view d w = none := by
    intro w hw hvalid
    have hzero := h.blank w (huser w hw) fun hc => hvalid (mem_forkRequests_page.1 hc).2
    unfold Vm.view
    rw [hzero, if_neg not_valid_zero, if_pos rfl]
  have hcopy : ∀ w, InVmas (s₀.mmap source) w → (s₀.pte source w).Valid →
      ∃ f, f < npage ∧ t.pte d w = pteCreate f (pteV ||| (userPerm (s₀.pte source w)).bits) ∧
        t.mem f = s₀.mem (ptePpn (s₀.pte source w)) := by
    intro w hw hvalid
    obtain ⟨f, g, hg, hf, hpte, hmem⟩ := h.copy w (huser w hw) (mem_forkRequests_page.2 ⟨hw, hvalid⟩)
    have hg' : ptePpn (s₀.pte source w) = g := (Pte.frame_eq_some.1 hg).2
    exact ⟨f, hf, hpte, hg'.symm ▸ hmem⟩
  constructor
  · intro hc w hw
    by_cases hvalid : (s₀.pte source w).Valid
    · exact Or.inl hvalid
    · right
      have hview := hc.view w hw
      rw [hblank w hw hvalid, Vm.view, if_neg hvalid] at hview
      by_contra hne
      rw [if_neg hne] at hview
      cases hview
  · intro hall
    refine ⟨h.kept hs₀, ?_, ?_, ?_, h.own⟩
    · rw [h.mmap, Function.update_self, areasOf_forkRequests]
    · intro w hw
      by_cases hvalid : (s₀.pte source w).Valid
      · obtain ⟨f, hf, hpte, hmem⟩ := hcopy w hw hvalid
        have hframe := frame_insert (userPerm (s₀.pte source w)) hf
        obtain ⟨hnew, hppn⟩ := Pte.frame_eq_some.1 hframe
        unfold Vm.view
        rw [hpte, if_pos hnew, if_pos hvalid, hppn, hmem]
      · have hzero := (hall w hw).resolve_left hvalid
        rw [hblank w hw hvalid, Vm.view, if_neg hvalid, if_pos hzero]
    · intro w hw hvalid
      obtain ⟨f, -, hpte, -⟩ := hcopy w hw hvalid
      rw [hpte, pteCreate_valid_userPerm f hvalid]

/-! ## The end of a child after an error -/

/-- What the child owns is what was free and is not any more. -/
theorem Copied.free_or_owns (h : Copied kind s₀ source d met t) (hs₀ : Frames kind s₀) :
    f ∈ s₀.free ↔ f ∈ t.free ∨ t.Owns d f := by
  obtain ⟨kind', hframes, huses⟩ := h.frames
  have hnot : d ∉ s₀.pgdirs := by
    rw [hs₀.root, h.child]
    simp
  rw [hs₀.free, hframes.free, hframes.owns_iff h.child_mem]
  constructor
  · intro hfree
    rcases huses f with heq | ⟨-, ⟨rfl, -⟩ | ⟨i, hi⟩ | ⟨sl, hsl⟩ | hdata⟩
    · exact Or.inl (heq.trans hfree)
    · exact Or.inr (Or.inl rfl)
    · exact Or.inr (Or.inr (Or.inl ⟨i, hi⟩))
    · exact Or.inr (Or.inr (Or.inr (Or.inl ⟨sl, hsl⟩)))
    · -- no address space of before maps a page that was free
      refine Or.inr (Or.inr (Or.inr (Or.inr ⟨hdata, ?_⟩)))
      rintro ⟨e, w⟩ hx
      obtain ⟨he, hw, hpage⟩ := mem_maps.1 hx
      by_contra hne
      rw [h.pgdirs] at he
      have he' := Finset.mem_of_mem_insert_of_ne he hne
      rw [Vm.page, h.others e he' w hw] at hpage
      have hk := hs₀.data e w f he' hw hpage
      rw [hfree] at hk
      cases hk
  · rintro (hk | rfl | ⟨i, hi⟩ | ⟨sl, hsl⟩ | ⟨hdata, hall⟩)
    · rcases huses f with heq | ⟨hfree, -⟩
      · exact heq.symm.trans hk
      · exact hfree
    · exact h.child
    · rcases huses f with heq | ⟨hfree, -⟩
      · exact absurd ((hs₀.dir f d i).1 (heq.symm.trans hi)).1 hnot
      · exact hfree
    · rcases huses f with heq | ⟨hfree, -⟩
      · exact absurd ((hs₀.table f d sl).1 (heq.symm.trans hsl)).1 hnot
      · exact hfree
    · rcases huses f with heq | ⟨hfree, -⟩
      · obtain ⟨⟨e, w⟩, hx⟩ := hs₀.data_iff.1 (heq.symm.trans hdata)
        obtain ⟨he, hw, hpage⟩ := mem_maps.1 hx
        have hpage' : t.page e w = some f := by rwa [Vm.page, h.others e he w hw]
        have hed := hall (e, w) (mem_maps.2 ⟨h.old_mem he, hw, hpage'⟩)
        exact absurd hed (h.ne_child hs₀ he)
      · exact hfree

/-- The child ends after an error: the parent and the others stay as they are, and the free pages are as
before exactly when the areas of the child are tidy. -/
theorem Copied.teardown (h : Copied kind s₀ source d met t) (hs₀ : Frames kind s₀)
    (hin : ∀ r ∈ met, r.Inside s₀ source) (hok : ∀ vma ∈ s₀.mmap source, vma.Ok) :
    ∃ u, TriOS.teardown t d = done u ∧ SpacesKept s₀ u ∧ u.pgdirs = s₀.pgdirs ∧
      (u.free = s₀.free ↔ ∀ i, Request.dir i ∈ met → Tidy (tablesOf met) i (areasOf met)) := by
  obtain ⟨kind', hframes, huses⟩ := h.frames
  have hnot : d ∉ s₀.pgdirs := by
    rw [hs₀.root, h.child]
    simp
  have hmmap : t.mmap d = areasOf met := by rw [h.mmap, Function.update_self]
  have hareas : ∀ vma ∈ t.mmap d, vma.Ok := by
    intro vma hvma
    rw [hmmap, mem_areasOf] at hvma
    exact hok vma ((hin _ hvma).area vma rfl)
  have hwithin : ∀ w < userPages, t.page d w ≠ none → InVmas (t.mmap d) w := by
    intro w hw hpage
    rw [hmmap]
    by_contra hc
    refine hpage ?_
    rw [Vm.page, h.blank w hw fun hreq => hc (h.inside w hreq), Pte.frame_zero]
  obtain ⟨u, hu, htears⟩ := teardown_tearsDown hframes h.child_mem hareas hwithin
  refine ⟨u, hu, ⟨?_, ?_, ?_, ?_⟩, ?_, ?_⟩
  · intro e he
    have hne := h.ne_child hs₀ he
    rw [htears.mmap, Function.update_of_ne hne, h.mmap, Function.update_of_ne hne]
  · intro e he w hw
    rw [htears.others e (h.old_mem he) (h.ne_child hs₀ he) w hw, h.others e he w hw]
  · intro e he w hw f hf
    have hdata := hs₀.data e w f he hw hf
    have hdata' : kind' f = FrameKind.data := (Copied.kind_eq (by simp [hdata]) huses).trans hdata
    rw [htears.mem f ?_ (by simp [hdata']) (by simp [hdata']), h.mem f hdata]
    rintro rfl
    rw [h.child] at hdata
    cases hdata
  · rw [htears.env.2.2.1, h.swap]
  · rw [htears.pgdirs, h.pgdirs, Finset.erase_insert hnot]
  · have hrestored : u.free = s₀.free ↔ Restored t u d := by
      rw [Finset.ext_iff]
      exact forall_congr' fun f => by rw [h.free_or_owns hs₀]
    have htables : (t.shape d).tables = tablesOf met := by
      ext sl
      rw [Vm.mem_shape_tables, mem_tablesOf]
      exact ⟨fun hc => (h.tables sl hc.1).1 hc.2, fun hc =>
        ⟨(hin _ hc).table sl rfl, (h.tables sl ((hin _ hc).table sl rfl)).2 hc⟩⟩
    rw [hrestored, hframes.restored_iff h.child_mem htears, htables, hmmap]
    refine forall_congr' fun i => imp_congr_left ?_
    rw [Vm.mem_shape_dirs]
    exact ⟨fun hc => (h.dirs i hc.1).1 hc.2, fun hc =>
      ⟨(hin _ hc).dir i rfl, (h.dirs i ((hin _ hc).dir i rfl)).2 hc⟩⟩

/-! ## copy_mm -/

theorem Vm.Parent.descending (hp : s.Parent source) : Descending (s.mmap source).reverse [] := by
  refine ⟨fun v hv => hp.ok v (List.mem_reverse.1 hv), by simp, ?_, by simp⟩
  rw [List.pairwise_reverse]
  exact hp.sorted

theorem copyMm_of_root (hpick : s.pmm.pick s.free = some page) : copyMm s source true kmallocOk =
    dupLoop (s.newRoot page) page source kmallocOk ((s.newRoot page).mmap source).reverse >>= fun r =>
      if r.1 ≠ 0 then TriOS.teardown r.2 page >>= fun u => pure (Except.error r.1, u)
      else pure (Except.ok page, r.2) := by
  unfold copyMm dupMmap
  rw [if_pos rfl, setupPgdir_eq, hpick]
  rfl

/-- A machine with seven free frames that does not swap. -/
def sevenFrames : MmState where
  vm := { fourFrames.vm with
    pmm := lowestPick {1, 2, 3, 4, 5, 6, 7} (by decide)
    swapInitOk := false
    free := {1, 2, 3, 4, 5, 6, 7} }
  held := ∅

theorem sevenFrames_boot : sevenFrames.Boot :=
  ⟨by decide, fun _ _ => rfl, rfl, rfl, by decide, fun _ _ => not_valid_zero⟩

/-- An address space of two pages, of which the first is touched. -/
theorem sevenFrames_run : ∃ t, Run MmStep sevenFrames
    [MmOp.setupPgdir, MmOp.mmMap 1 0x200000 0x2000 vmWrite true, MmOp.doPgfault 1 0x200000] t ∧
      1 ∈ t.vm.pgdirs ∧ t.vm.mmap 1 = [{ start := 0x200000, stop := 0x202000, flags := vmWrite }] ∧
      copyMm t.vm 1 true (fun _ => true) = panic :=
  ⟨_, Run.cons ⟨trivial, rfl⟩ (Run.cons ⟨Finset.mem_insert_self _ _, rfl⟩
    (Run.cons ⟨Finset.mem_insert_self _ _, rfl⟩ Run.nil)), Finset.mem_insert_self _ _, by decide, rfl⟩

end TriOS
