import TriOS.Mm.PagingTables

/-!
# PagingPages — pages that are inserted, removed and copied

`Inserts` is what `page_insert` does at an address that has a table: one entry is written, and the counts
follow. `Reuse` says what a frame may have become in the meantime, so that nothing is lost on the way
between the allocator and the entries.
-/

namespace TriOS

open Outcome

variable {kind kind' kind'' : Nat → FrameKind} {s t u : Vm} {d d' e f g p i j v w sl sl' la page : Nat}
  {x : Pte} {perm : Perm}

/-! ## page_insert -/

/-- The permissions with the valid bit. -/
def Perm.valid (perm : Perm) : Perm where
  bits := pteV ||| perm.bits
  flags := by
    have hdistrib : (pteV ||| perm.bits) &&& flagMask = pteV &&& flagMask ||| perm.bits &&& flagMask := by
      apply UInt64.toBitVec_inj.1
      simp only [UInt64.toBitVec_and, UInt64.toBitVec_or, BitVec.and_or_distrib_right]
    rw [hdistrib, perm.flags, show pteV &&& flagMask = pteV by decide]

theorem frame_insert (perm : Perm) (h : page < npage) :
    Pte.frame (pteCreate page (pteV ||| perm.bits)) = some page :=
  frame_pteCreate h perm.valid

/-- `t` is `s` after the entry of the page `v` of `d` has been set to `x`, which maps `page`. -/
structure Inserts (kind : Nat → FrameKind) (s t : Vm) (d v page : Nat) (x : Pte) : Prop where
  env : s.SameEnv t
  frames : Frames (rekind kind t (some page)) t
  sets : SetsEntry s t d v x
  mem : ∀ g, (∀ sl, kind g ≠ FrameKind.table d sl) → t.mem g = s.mem g

theorem Frames.inserts (h : Frames kind s) (hp : kind p = FrameKind.table d (v / nPteEntry))
    (hv : v < userPages) (hx : x.frame = some page)
    (hpage : kind page = FrameKind.data ∨ kind page = FrameKind.held) (henv : s.SameEnv t)
    (hmem : ∀ g k, t.mem g k = if g = p ∧ k = v % nPteEntry then x else s.mem g k)
    (href : ∀ f, t.ref f =
      s.ref f + (if page = f then 1 else 0) - if s.page d v = some f then 1 else 0)
    (hfree : ∀ f, f ∈ t.free ↔ f ∈ s.free ∨ s.page d v = some f ∧ f ≠ page ∧ s.ref f = 1) :
    Inserts kind s t d v page x := by
  obtain ⟨hd, -, -⟩ := (h.table p d _).1 hp
  have hset : SetsEntry s t d v x := h.setsEntry hp hmem
  have hboot : s.bootPgdir ≠ p := h.boot_ne (by simp [hp])
  refine ⟨henv, ?_, hset, ?_⟩
  · rw [← hx]
    refine h.entryChange henv hd hv hset ?_ ?_ ?_ ?_
    · intro i _
      rw [hmem, if_neg fun hc => hboot hc.1]
    · intro f hf
      rw [hx] at hf
      cases hf
      exact hpage
    · intro f
      simp only [href, hx, Option.some.injEq]
    · intro f
      rw [hfree]
      refine or_congr Iff.rfl (and_congr_right fun hold => ?_)
      rw [hset.maps henv.pgdirs hd hv, hx]
      by_cases hf : f = page
      · subst hf
        simp
      · have hdata := h.data d v f hd hv hold
        have hin : (d, v) ∈ s.maps f := mem_maps.2 ⟨hd, hv, hold⟩
        have hone : s.ref f = 1 ↔ (s.maps f).erase (d, v) = ∅ := h.ref_eq_one hdata hin
        rw [if_neg fun hc => hf (Option.some.inj hc).symm, hone]
        exact ⟨fun hc => hc.2, fun hc => ⟨hf, hc⟩⟩
  · intro g hg
    have hne : g ≠ p := by
      rintro rfl
      exact hg _ hp
    funext k
    rw [hmem, if_neg fun hc => hne hc.1]

theorem replacePte_none (hold : (s.mem f i).frame = none) : replacePte s page f i = done s := by
  unfold replacePte
  rw [if_neg (Pte.frame_eq_none.1 hold)]
  rfl

theorem replacePte_same (hold : (s.mem f i).frame = some page) (hlt : page < npage) :
    replacePte s page f i = done (s.setPageRef page (s.ref page - 1)) := by
  unfold replacePte
  rw [if_pos (Pte.frame_eq_some.1 hold).1, pte2page_eq hold hlt, bind_done, if_pos rfl]
  rfl

theorem replacePte_other (hold : (s.mem f i).frame = some g) (hlt : g < npage) (hne : g ≠ page)
    (hpool : g ∈ s.pmm.pool) (hfree : g ∉ s.free) :
    replacePte s page f i = done ((s.dropped g).setWord f i 0) := by
  have hvalid := (Pte.frame_eq_some.1 hold).1
  unfold replacePte
  rw [if_pos hvalid, pte2page_eq hold hlt, bind_done, if_neg hne]
  unfold pageRemovePte
  rw [if_pos hvalid, pte2page_eq hold hlt, bind_done, dropRef_eq hpool hfree]
  rfl

/-- The part of `page_insert` after `get_pte`. -/
theorem replacePte_inserts (h : Frames kind s) (hp : kind p = FrameKind.table d (v / nPteEntry))
    (hv : v < userPages) (hx : x.frame = some page)
    (hpage : kind page = FrameKind.data ∨ kind page = FrameKind.held) :
    ∃ r, replacePte (s.setPageRef page (s.ref page + 1)) page p (v % nPteEntry) = done r ∧
      Inserts kind s (r.setWord p (v % nPteEntry) x) d v page x := by
  obtain ⟨hd, -, hpt⟩ := (h.table p d _).1 hp
  have hpte : s.page d v = (s.mem p (v % nPteEntry)).frame := by rw [Vm.page, Vm.pte_of_pt hpt]
  let s' := s.setPageRef page (s.ref page + 1)
  by_cases hvalid : (s.mem p (v % nPteEntry)).Valid
  · let old := ptePpn (s.mem p (v % nPteEntry))
    have hframe : (s.mem p (v % nPteEntry)).frame = some old := Pte.frame_eq_some.2 ⟨hvalid, rfl⟩
    have hdata : kind old = FrameKind.data := h.data d v old hd hv (hpte.trans hframe)
    have hlt : old < npage := h.lt_npage (by simp [hdata])
    by_cases hsame : old = page
    · -- the same page once more
      refine ⟨s'.setPageRef page (s'.ref page - 1), ?_, h.inserts hp hv hx hpage
        ⟨rfl, rfl, rfl, rfl, rfl, rfl, rfl⟩ (fun g k => setWord_mem g k) ?_ ?_⟩
      · exact replacePte_same (hsame ▸ hframe) (hsame ▸ hlt)
      · intro f
        rw [hpte, hframe, hsame]
        change Function.update (Function.update s.ref page _) page
          (Function.update s.ref page _ page - 1) f = _
        by_cases hf : f = page
        · subst hf
          simp
        · simp [hf, Ne.symm hf]
      · intro f
        rw [hpte, hframe, hsame]
        refine ⟨Or.inl, fun hc => hc.elim id fun hc => ?_⟩
        exact absurd (Option.some.inj hc.1).symm hc.2.1
    · have hnotFree : old ∉ s'.free := by
        change old ∉ s.free
        rw [h.free, hdata]
        simp
      have href : s'.ref old = s.ref old := Function.update_of_ne hsame _ _
      refine ⟨(s'.dropped old).setWord p (v % nPteEntry) 0, ?_, h.inserts hp hv hx hpage
        ⟨rfl, rfl, rfl, rfl, rfl, rfl, rfl⟩ ?_ ?_ ?_⟩
      · exact replacePte_other (s := s') hframe hlt hsame (h.pool old (by simp [hdata])) hnotFree
      · intro g k
        rw [setWord_mem, setWord_mem]
        split
        · rfl
        · rfl
      · intro f
        rw [hpte, hframe]
        change Function.update (Function.update s.ref page _) old (s'.ref old - 1) f = _
        rw [href]
        by_cases hf : f = old
        · subst hf
          simp [Ne.symm hsame]
        · rw [Function.update_of_ne hf]
          by_cases hfp : f = page
          · subst hfp
            simp [hsame]
          · simp [hfp, Ne.symm hf, Ne.symm hfp]
      · intro f
        rw [hpte, hframe]
        change f ∈ (if s'.ref old = 1 then insert old s.free else s.free) ↔ _
        rw [href]
        by_cases hone : s.ref old = 1
        · rw [if_pos hone, Finset.mem_insert, or_comm]
          refine or_congr Iff.rfl ⟨?_, ?_⟩
          · rintro rfl
            exact ⟨rfl, hsame, hone⟩
          · rintro ⟨hc, -, -⟩
            exact (Option.some.inj hc).symm
        · rw [if_neg hone]
          refine ⟨Or.inl, fun hc => hc.elim id ?_⟩
          rintro ⟨hc, -, hf⟩
          cases hc
          exact absurd hf hone
  · have hnone : (s.mem p (v % nPteEntry)).frame = none := Pte.frame_eq_none.2 hvalid
    refine ⟨s', ?_, h.inserts hp hv hx hpage ⟨rfl, rfl, rfl, rfl, rfl, rfl, rfl⟩
      (fun g k => setWord_mem g k) ?_ ?_⟩
    · exact replacePte_none (s := s') hnone
    · intro f
      rw [hpte, hnone]
      change Function.update s.ref page _ f = _
      by_cases hf : f = page
      · subst hf
        simp
      · simp [hf, Ne.symm hf]
    · intro f
      rw [hpte, hnone]
      simp [s', Vm.setPageRef, Vm.setWord]

/-- `page_insert` where there is a table. -/
theorem pageInsert_of_pt (perm : Perm) (h : Frames kind s) (hd : d ∈ s.pgdirs) (hla : la < userTop)
    (hpt : s.pt d (la / ptSize) = some p) (hpage : kind page = FrameKind.data ∨ kind page = FrameKind.held) :
    ∃ t, pageInsert s d page la perm = done (0, t) ∧
      Inserts kind s t d (la / pgSize) page (pteCreate page (pteV ||| perm.bits)) := by
  have hp : kind p = FrameKind.table d (la / pgSize / nPteEntry) := by
    rw [div_ptSize]
    exact (h.table p d _).2 ⟨hd, div_lt_tables hla, hpt⟩
  have hlt : page < npage := h.lt_npage (by rcases hpage with hk | hk <;> simp [hk])
  obtain ⟨r, hr, hins⟩ := replacePte_inserts h hp (div_lt_pages hla) (frame_insert perm hlt) hpage
  refine ⟨_, ?_, hins⟩
  unfold pageInsert
  rw [getPte_of_pt h hd hla hpt, bind_done]
  dsimp only
  rw [hr]
  rfl

/-- `page_insert`: without memory for a table nothing is mapped. -/
theorem pageInsert_inserts (h : Frames kind s) (hd : d ∈ s.pgdirs) (hla : la < userTop)
    (hpage : kind page = FrameKind.data ∨ kind page = FrameKind.held) :
    Safe (pageInsert s d page la perm) fun r => ∃ kind' t, Grows kind kind' s t d (la / ptSize) ∧
      (r = (-eNoMem, t) ∨ r.1 = 0 ∧
        Inserts kind' t r.2 d (la / pgSize) page (pteCreate page (pteV ||| perm.bits))) := by
  unfold pageInsert
  refine (getPte_grows h hd hla).bind fun r hr => ?_
  obtain ⟨kind', hgrows, htable⟩ := hr
  have hpage' : kind' page = FrameKind.data ∨ kind' page = FrameKind.held := by
    rcases hgrows.uses page with heq | ⟨hfree, -⟩
    · rwa [heq]
    · rw [hfree] at hpage
      simp at hpage
  rcases r with ⟨_ | ⟨p, i⟩, t⟩
  · exact ⟨kind', t, hgrows, Or.inl rfl⟩
  · obtain ⟨hp, hi⟩ := htable _ rfl
    dsimp only at hp hi hgrows ⊢
    subst hi
    rw [← div_ptSize] at hp
    have hlt : page < npage := hgrows.frames.lt_npage (by rcases hpage' with hk | hk <;> simp [hk])
    obtain ⟨r, hr, hins⟩ :=
      replacePte_inserts hgrows.frames hp (div_lt_pages hla) (frame_insert perm hlt) hpage'
    rw [hr]
    exact ⟨kind', t, hgrows, Or.inr ⟨rfl, hins⟩⟩

/-! ## Pages that are not mapped -/

/-- A page that is not mapped is taken, given back or written. -/
theorem Frames.pageStep {k : FrameKind} (h : Frames kind s) (henv : s.SameEnv t)
    (hmem : ∀ g, g ≠ page → t.mem g = s.mem g)
    (hwas : kind page = FrameKind.free ∨ kind page = FrameKind.held)
    (hk : k = FrameKind.free ∨ k = FrameKind.held)
    (hfree : ∀ f, f ∈ t.free ↔ if f = page then k = FrameKind.free else f ∈ s.free)
    (href : ∀ f, f ≠ page → t.ref f = s.ref f) (hzero : t.ref page = 0) :
    Frames (Function.update kind page k) t ∧ SameWalk s t := by
  have hne : ∀ k', k' ≠ FrameKind.free → k' ≠ FrameKind.held → kind page ≠ k' := by
    intro k' h1 h2 hc
    rcases hwas with hw | hw <;> rw [hw] at hc
    · exact h1 hc.symm
    · exact h2 hc.symm
  have hwalk : SameWalk s t := h.sameWalk hmem (hne _ (by simp) (by simp))
    (fun d i => hne _ (by simp) (by simp)) fun d sl => hne _ (by simp) (by simp)
  have hpages : ∀ e w, e ∈ s.pgdirs → w < userPages → t.page e w = s.page e w := fun e w he hw => by
    rw [Vm.page, hwalk.pte e he w hw, Vm.page]
  have hmaps : ∀ f, t.maps f = s.maps f := by
    intro f
    ext ⟨e, w⟩
    rw [mem_maps, mem_maps, henv.pgdirs]
    exact and_congr_right fun he => and_congr_right fun hw => by rw [hpages e w he hw]
  have hboot : s.bootPgdir ≠ page := by
    rintro hc
    exact hne FrameKind.other (by simp) (by simp) (hc ▸ h.boot.1)
  refine ⟨h.of_walk henv hwalk.next hwalk.pt (fun i _ => by rw [hmem _ hboot]) ?_ ?_ ?_ ?_ ?_, hwalk⟩
  · intro f
    by_cases hf : f = page
    · subst hf
      rw [Function.update_self]
      right
      constructor
      · rcases hwas with hw | hw <;> simp [FrameKind.IsPage, hw]
      · rcases hk with rfl | rfl <;> simp [FrameKind.IsPage]
    · exact Or.inl (Function.update_of_ne hf _ _)
  · intro f
    rw [hfree]
    by_cases hf : f = page
    · subst hf
      simp
    · rw [if_neg hf, Function.update_of_ne hf, h.free]
  · intro d v f hd hv hf
    rw [hpages d v hd hv] at hf
    have hdata := h.data d v f hd hv hf
    have hfp : f ≠ page := fun hc => hne FrameKind.data (by simp) (by simp) (hc ▸ hdata)
    rwa [Function.update_of_ne hfp]
  · intro f hf
    have hfp : f ≠ page := by
      rintro rfl
      rw [Function.update_self] at hf
      rcases hk with rfl | rfl <;> cases hf
    rw [Function.update_of_ne hfp] at hf
    rw [href f hfp, hmaps]
    exact h.ref f hf
  · intro f hf
    by_cases hfp : f = page
    · exact hfp ▸ hzero
    · rw [Function.update_of_ne hfp] at hf
      rw [href f hfp]
      exact h.unref f hf

/-- `alloc_page` has handed out a page. -/
theorem Frames.alloc (h : Frames kind s) (hpage : page ∈ s.free) :
    Frames (Function.update kind page FrameKind.held) { s with free := s.free.erase page } ∧
      SameWalk s { s with free := s.free.erase page } := by
  have hwas := (h.free page).1 hpage
  refine h.pageStep ⟨rfl, rfl, rfl, rfl, rfl, rfl, rfl⟩ (fun _ _ => rfl) (Or.inl hwas) (Or.inr rfl) ?_
    (fun _ _ => rfl) (h.unref page (Or.inl hwas))
  intro f
  by_cases hf : f = page
  · subst hf
    simp
  · simp [hf]

/-- A page that is not mapped is filled. -/
theorem Frames.setPage (h : Frames kind s) (words : Nat → UInt64) (hwas : kind page = FrameKind.held) :
    Frames kind (s.setPage page words) ∧ SameWalk s (s.setPage page words) := by
  have hstep := h.pageStep (t := s.setPage page words) (k := FrameKind.held)
    ⟨rfl, rfl, rfl, rfl, rfl, rfl, rfl⟩ (fun g hg => setPage_mem_of_ne hg) (Or.inr hwas) (Or.inr rfl) ?_
    (fun _ _ => rfl) (h.unref page (Or.inr hwas))
  · rwa [show Function.update kind page FrameKind.held = kind by rw [← hwas, Function.update_eq_self]] at hstep
  · intro f
    change f ∈ s.free ↔ _
    by_cases hf : f = page
    · subst hf
      simp [h.free, hwas]
    · rw [if_neg hf]

/-- `free_page` of a page that is not mapped. -/
theorem freePage_held (h : Frames kind s) (hwas : kind page = FrameKind.held) :
    ∃ t, freePage s page = done t ∧ s.SameEnv t ∧ t.mem = s.mem ∧
      Frames (Function.update kind page FrameKind.free) t ∧ SameWalk s t := by
  have hnot : page ∉ s.free := by
    rw [h.free, hwas]
    simp
  refine ⟨{ s.setPageRef page 0 with free := insert page s.free }, ?_,
    ⟨rfl, rfl, rfl, rfl, rfl, rfl, rfl⟩, rfl, ?_⟩
  · unfold freePage
    rw [assert_of (h.pool page (by simp [hwas])), bind_done, if_neg hnot]
    rfl
  · refine h.pageStep ⟨rfl, rfl, rfl, rfl, rfl, rfl, rfl⟩ (fun _ _ => rfl) (Or.inr hwas) (Or.inl rfl) ?_
      (fun f hf => Function.update_of_ne hf _ _) (Function.update_self _ _ _)
    intro f
    by_cases hf : f = page
    · subst hf
      simp
    · simp [hf]

/-! ## What becomes of the frames -/

/-- What may become of a frame while pages of the address space `d` come and go. -/
def Reused (d : Nat) (k k' : FrameKind) : Prop :=
  k' = k ∨ (k = FrameKind.free ∨ k = FrameKind.data) ∧
    (k' = FrameKind.free ∨ k' = FrameKind.data ∨ (∃ i, k' = FrameKind.dir d i) ∨
      ∃ sl, k' = FrameKind.table d sl)

theorem Reused.trans {k k' k'' : FrameKind} (h : Reused d k k') (h' : Reused d k' k'') :
    Reused d k k'' := by
  rcases h with rfl | ⟨hk, hk'⟩
  · exact h'
  · rcases h' with rfl | ⟨-, hk''⟩
    · exact Or.inr ⟨hk, hk'⟩
    · exact Or.inr ⟨hk, hk''⟩

/-- Pages of `d` have come and gone, those that came at pages of `Q`; `hand` is a page that the code had
in its hands. -/
structure Reuses (kind kind' : Nat → FrameKind) (s t : Vm) (d : Nat) (Q : Nat → Prop)
    (hand : Option Nat) : Prop where
  env : s.SameEnv t
  frames : Frames kind' t
  uses : ∀ f, hand ≠ some f → Reused d (kind f) (kind' f)
  others : ∀ e ∈ s.pgdirs, e ≠ d → ∀ w < userPages, t.pte e w = s.pte e w
  within : ∀ w < userPages, t.page d w ≠ s.page d w → t.page d w = none ∨ Q w

variable {Q : Nat → Prop} {hand : Option Nat}

theorem Reuses.refl (h : Frames kind s) : Reuses kind kind s s d Q hand :=
  ⟨Vm.SameEnv.refl s, h, fun _ _ => Or.inl rfl, fun _ _ _ _ _ => rfl, fun _ _ hc => absurd rfl hc⟩

theorem Reuses.trans (h : Reuses kind kind' s t d Q hand) (h' : Reuses kind' kind'' t u d Q hand) :
    Reuses kind kind'' s u d Q hand := by
  refine ⟨h.env.trans h'.env, h'.frames, fun f hf => (h.uses f hf).trans (h'.uses f hf), ?_, ?_⟩
  · intro e he hne w hw
    exact (h'.others e (h.env.pgdirs ▸ he) hne w hw).trans (h.others e he hne w hw)
  · intro w hw hne
    by_cases hsame : u.page d w = t.page d w
    · rw [hsame] at hne ⊢
      exact h.within w hw hne
    · exact h'.within w hw hsame

theorem Reuses.mono {Q' : Nat → Prop} (h : Reuses kind kind' s t d Q none)
    (hQ : ∀ w < userPages, Q w → Q' w) : Reuses kind kind' s t d Q' hand :=
  ⟨h.env, h.frames, fun f _ => h.uses f (by simp), h.others, fun w hw hne =>
    (h.within w hw hne).imp id (hQ w hw)⟩

/-- The page in the hands of the code was taken from the allocator, and it is mapped or given back. -/
theorem Reuses.close (h : Reuses kind kind' s t d Q (some page)) (hwas : kind page = FrameKind.free)
    (hnow : kind' page = FrameKind.free ∨ kind' page = FrameKind.data) :
    Reuses kind kind' s t d Q none := by
  refine ⟨h.env, h.frames, fun f _ => ?_, h.others, h.within⟩
  by_cases hf : page = f
  · subst hf
    exact Or.inr ⟨Or.inl hwas, hnow.imp id Or.inl⟩
  · exact h.uses f (by simpa using hf)

theorem Grows.reuses (h : Grows kind kind' s t d sl) (hd : d ∈ s.pgdirs) :
    Reuses kind kind' s t d Q hand := by
  refine ⟨h.env, h.frames, fun f _ => ?_, fun e he _ => h.pte e he, fun w hw hne => ?_⟩
  · rcases h.uses f with heq | ⟨hfree, hnew⟩
    · exact Or.inl heq
    · refine Or.inr ⟨Or.inl hfree, Or.inr (Or.inr ?_)⟩
      exact hnew.imp (fun hk => ⟨_, hk⟩) fun hk => ⟨_, hk⟩
  · exact absurd (by rw [Vm.page, h.pte d hd w hw, Vm.page]) hne

theorem rekind_reused {new : Option Nat} (hf : new ≠ some f) : Reused d (kind f) (rekind kind t new f) := by
  unfold rekind
  rw [if_neg hf]
  split
  · next hc => exact Or.inr ⟨Or.inr hc.1, Or.inl rfl⟩
  · exact Or.inl rfl

theorem rekind_self : rekind kind t (some page) page = FrameKind.data :=
  if_pos rfl

theorem Inserts.reuses (h : Inserts kind s t d v page x) (hd : d ∈ s.pgdirs) (hQ : Q v) :
    Reuses kind (rekind kind t (some page)) s t d Q (some page) := by
  refine ⟨h.env, h.frames, fun f hf => rekind_reused hf, ?_, ?_⟩
  · intro e he hne w hw
    rw [h.sets.pte e he w hw, if_neg fun hc => hne hc.1]
  · intro w hw hne
    right
    by_contra hc
    refine hne ?_
    rw [h.sets.page hd hw, if_neg]
    rintro ⟨-, rfl⟩
    exact hc hQ

theorem SameWalk.reuses {k : FrameKind} (h : SameWalk s t) (henv : s.SameEnv t)
    (hframes : Frames (Function.update kind page k) t) (hd : d ∈ s.pgdirs) :
    Reuses kind (Function.update kind page k) s t d Q (some page) := by
  refine ⟨henv, hframes, fun f hf => Or.inl (Function.update_of_ne ?_ _ _), fun e he _ => h.pte e he, ?_⟩
  · rintro rfl
    exact hf rfl
  · intro w hw hne
    exact absurd (by rw [Vm.page, h.pte d hd w hw, Vm.page]) hne

theorem Unmaps.reuses {P : Nat → Prop} (h : Unmaps kind s t d P) :
    Reuses kind (rekind kind t none) s t d Q hand := by
  refine ⟨h.env, h.frames, fun f _ => rekind_reused (by simp), ?_, ?_⟩
  · intro e he hne w hw
    exact h.kept e he w hw fun hc => hne hc.1
  · intro w hw hne
    rcases h.only w hw with heq | hzero
    · exact absurd (by rw [Vm.page, heq, Vm.page]) hne
    · left
      rw [Vm.page, hzero, Pte.frame_zero]

/-! ## pgdir_alloc_page -/

theorem pageRemove_unmaps (h : Frames kind s) (hd : d ∈ s.pgdirs) (hla : la < userTop) :
    ∃ t, pageRemove s d la = done t ∧ Unmaps kind s t d fun w => w = la / pgSize := by
  unfold pageRemove
  rw [getPte_false h hd hla, bind_done]
  cases hpt : s.pt d (la / ptSize) with
  | none =>
      refine ⟨s, rfl, Unmaps.refl h d _ ?_⟩
      rintro w hw rfl
      rw [Vm.pte_of_none (by rw [div_ptSize]; exact hpt)]
      exact not_valid_zero
  | some p =>
      refine pageRemovePte_unmaps h ?_ (div_lt_pages hla)
      rw [div_ptSize]
      exact (h.table p d _).2 ⟨hd, div_lt_tables hla, hpt⟩

/-- `page_insert` as far as the frames are concerned. -/
theorem pageInsert_reuses (h : Frames kind s) (hd : d ∈ s.pgdirs) (hla : la < userTop)
    (hpage : kind page = FrameKind.data ∨ kind page = FrameKind.held) (hQ : Q (la / pgSize)) :
    Safe (pageInsert s d page la perm) fun r =>
      ∃ kind', Reuses kind kind' s r.2 d Q (some page) ∧
        (r.1 = -eNoMem ∧ kind' page = kind page ∨ r.1 = 0 ∧ kind' page = FrameKind.data) := by
  refine (pageInsert_inserts h hd hla hpage).mono fun r hr => ?_
  obtain ⟨kind', t, hgrows, hr⟩ := hr
  have hd' : d ∈ t.pgdirs := hgrows.env.pgdirs ▸ hd
  rcases hr with rfl | ⟨hzero, hins⟩
  · refine ⟨kind', hgrows.reuses hd, Or.inl ⟨rfl, ?_⟩⟩
    rcases hgrows.uses page with heq | ⟨hfree, -⟩
    · exact heq
    · rw [hfree] at hpage
      simp at hpage
  · exact ⟨_, (hgrows.reuses hd).trans (hins.reuses hd' hQ), Or.inr ⟨hzero, rekind_self⟩⟩

theorem eNoMem_ne_zero : -eNoMem ≠ 0 := by decide

theorem pgdirAllocPage_reuses (h : Frames kind s) (hd : d ∈ s.pgdirs) (hla : la < userTop)
    (hQ : Q (la / pgSize)) :
    Safe (pgdirAllocPage s d la perm) fun r => ∃ kind', Reuses kind kind' s r.2 d Q none := by
  unfold pgdirAllocPage
  cases hpick : s.pmm.pick s.free with
  | none =>
      rw [allocPage_none hpick]
      split
      · trivial
      · exact ⟨kind, Reuses.refl h⟩
  | some page =>
      have hpage := s.pmm.pick_mem _ _ hpick
      have hwas := (h.free page).1 hpage
      obtain ⟨hframes, hwalk⟩ := h.alloc hpage
      have hsteps : Reuses kind _ s _ d Q (some page) :=
        hwalk.reuses ⟨rfl, rfl, rfl, rfl, rfl, rfl, rfl⟩ hframes hd
      rw [allocPage_some hpick, bind_done]
      refine (pageInsert_reuses hframes hd hla (Or.inr (Function.update_self _ _ _)) hQ).bind fun r hr => ?_
      obtain ⟨ret, t⟩ := r
      obtain ⟨kind', hins, hr⟩ := hr
      dsimp only at hins hr ⊢
      rcases hr with ⟨hret, hheld⟩ | ⟨hret, hdata⟩
      · -- the page is given back when there is no memory for its table
        rw [Function.update_self] at hheld
        obtain ⟨u, hu, henv, hmem, hfree, hwalk'⟩ := freePage_held hins.frames hheld
        rw [if_pos (by rw [hret]; exact eNoMem_ne_zero), hu]
        have hall := (hsteps.trans hins).trans (hwalk'.reuses henv hfree (hins.env.pgdirs ▸ hd))
        exact ⟨_, hall.close hwas (Or.inl (Function.update_self _ _ _))⟩
      · rw [if_neg (by rw [hret]; simp)]
        exact ⟨kind', (hsteps.trans hins).close hwas (Or.inr hdata)⟩

/-! ## copy_range and do_pgfault -/

/-- `t` is `s` after a page has been taken from the allocator, filled with `words` and mapped. -/
structure MapsFresh (kind : Nat → FrameKind) (s t : Vm) (d v page : Nat) (words : Nat → UInt64)
    (x : Pte) : Prop where
  was : kind page = FrameKind.free
  env : s.SameEnv t
  frames : Frames (rekind (Function.update kind page FrameKind.held) t (some page)) t
  sets : SetsEntry s t d v x
  frame : x.frame = some page
  words : t.mem page = words
  mem : ∀ g, g ≠ page → (∀ sl, kind g ≠ FrameKind.table d sl) → t.mem g = s.mem g

theorem MapsFresh.reuses {words : Nat → UInt64} (h : MapsFresh kind s t d v page words x)
    (hd : d ∈ s.pgdirs) (hQ : Q v) :
    Reuses kind (rekind (Function.update kind page FrameKind.held) t (some page)) s t d Q none := by
  refine ⟨h.env, h.frames, fun f _ => ?_, ?_, ?_⟩
  · by_cases hf : f = page
    · subst hf
      exact Or.inr ⟨Or.inl h.was, Or.inr (Or.inl rekind_self)⟩
    · have hstep : Reused d (Function.update kind page FrameKind.held f)
          (rekind (Function.update kind page FrameKind.held) t (some page) f) :=
        rekind_reused fun hc => hf (Option.some.inj hc).symm
      rwa [Function.update_of_ne hf] at hstep
  · intro e he hne w hw
    rw [h.sets.pte e he w hw, if_neg fun hc => hne hc.1]
  · intro w hw hne
    right
    by_contra hc
    refine hne ?_
    rw [h.sets.page hd hw, if_neg]
    rintro ⟨-, rfl⟩
    exact hc hQ

theorem SetsEntry.of_sameWalk (hset : SetsEntry t u d v x) (hwalk : SameWalk s t)
    (hpgdirs : t.pgdirs = s.pgdirs) : SetsEntry s u d v x := by
  refine ⟨?_, ?_, ?_⟩
  · intro e he i hi
    exact (hset.next e (hpgdirs ▸ he) i hi).trans (hwalk.next e he i hi)
  · intro e he sl hsl
    exact (hset.pt e (hpgdirs ▸ he) sl hsl).trans (hwalk.pt e he sl hsl)
  · intro e he w hw
    rw [hset.pte e (hpgdirs ▸ he) w hw, hwalk.pte e he w hw]

/-- A fresh page is filled and inserted where there is a table. -/
theorem pageInsert_fresh (words : Nat → UInt64) (perm : Perm) (h : Frames kind s) (hd : d ∈ s.pgdirs)
    (hla : la < userTop) (hpt : s.pt d (la / ptSize) = some p) (hpage : page ∈ s.free) :
    ∃ t, pageInsert (Vm.setPage { s with free := s.free.erase page } page words) d page la perm =
        done (0, t) ∧
      MapsFresh kind s t d (la / pgSize) page words (pteCreate page (pteV ||| perm.bits)) := by
  have hwas := (h.free page).1 hpage
  have hheld : Function.update kind page FrameKind.held page = FrameKind.held :=
    Function.update_self _ _ _
  have hlt : page < npage := h.lt_npage (by simp [hwas])
  obtain ⟨halloc, hwalk⟩ := h.alloc hpage
  obtain ⟨hfill, hwalk'⟩ := halloc.setPage words hheld
  have hpt' : Vm.pt (Vm.setPage { s with free := s.free.erase page } page words) d (la / ptSize) =
      some p := by
    rw [hwalk'.pt d hd _ (div_lt_tables hla), hwalk.pt d hd _ (div_lt_tables hla), hpt]
  obtain ⟨t, ht, hins⟩ := pageInsert_of_pt perm hfill hd hla hpt' (Or.inr hheld)
  refine ⟨t, ht, hwas, ⟨hins.env.pmm, hins.env.swapInitOk, hins.env.maxSwapOffset, hins.env.swap,
    hins.env.bootPgdir, hins.env.pgdirs, hins.env.mmap⟩, hins.frames,
    (hins.sets.of_sameWalk hwalk' rfl).of_sameWalk hwalk rfl, frame_insert perm hlt, ?_, ?_⟩
  · rw [hins.mem page fun sl => by simp, setPage_mem_self]
  · intro g hg htable
    rw [hins.mem g (by rwa [Function.update_of_ne hg]), setPage_mem_of_ne hg]

/-- `copy_range` for one page. -/
theorem copyPage_spec {pte : Pte} (h : Frames kind s) (hd : d ∈ s.pgdirs) (hla : la < userTop)
    (hf : pte.frame = some f) (hdata : kind f = FrameKind.data) :
    Safe (copyPage s d la pte) fun r => ∃ kind' t, Grows kind kind' s t d (la / ptSize) ∧
      (r = (-eNoMem, t) ∨ r.1 = 0 ∧ ∃ page,
        MapsFresh kind' t r.2 d (la / pgSize) page (s.mem f)
          (pteCreate page (pteV ||| (userPerm pte).bits))) := by
  unfold copyPage
  refine (getPte_grows h hd hla).bind fun r hr => ?_
  obtain ⟨kind', hgrows, htable⟩ := hr
  rcases r with ⟨_ | ⟨p, i⟩, t⟩
  · exact ⟨kind', t, hgrows, Or.inl rfl⟩
  · obtain ⟨hp, -⟩ := htable _ rfl
    obtain ⟨hd', -, hpt⟩ := (hgrows.frames.table p d _).1 hp
    dsimp only at hgrows hd' hpt ⊢
    rw [pte2page_eq hf (h.lt_npage (by simp [hdata])), bind_done]
    cases hpick : t.pmm.pick t.free with
    | none =>
        rw [allocPage_none hpick]
        split
        · trivial
        · trivial
    | some page =>
        rw [allocPage_some hpick, bind_done]
        dsimp only
        obtain ⟨u, hu, hfresh⟩ := pageInsert_fresh (t.mem f) (userPerm pte) hgrows.frames
          hd' hla hpt (t.pmm.pick_mem _ _ hpick)
        rw [hu]
        refine ⟨kind', t, hgrows, Or.inr ⟨rfl, page, ?_⟩⟩
        rwa [hgrows.mem f (Or.inl hdata)] at hfresh

/-- The next address of the loops over a range. -/
theorem next_address {start : Nat} (hstart : start % pgSize = 0) :
    roundDown (start + ptSize) ptSize % pgSize = 0 ∧
      start + pgSize ≤ roundDown (start + ptSize) ptSize ∧
      roundDown (start + ptSize) ptSize = (start / ptSize + 1) * ptSize := by
  unfold pgSize at hstart
  unfold roundDown ptSize pgSize
  omega

theorem copyStep_reuses {source start : Nat} (h : Frames kind s) (hd : d ∈ s.pgdirs)
    (he : source ∈ s.pgdirs) (hstart : start % pgSize = 0) (hla : start < userTop)
    (hQ : Q (start / pgSize)) :
    Safe (copyStep s d source start) fun r =>
      (∃ kind', Reuses kind kind' s r.2.1 d Q none) ∧ r.2.2 % pgSize = 0 ∧ start + pgSize ≤ r.2.2 := by
  have hpage : (start + pgSize) % pgSize = 0 := by simpa using hstart
  unfold copyStep
  rw [getPte_false h he hla, bind_done]
  cases hpt : s.pt source (start / ptSize) with
  | none => exact ⟨⟨kind, Reuses.refl h⟩, (next_address hstart).1, (next_address hstart).2.1⟩
  | some p =>
      simp only [Option.map_some]
      by_cases hvalid : (s.mem p (start / pgSize % nPteEntry)).Valid
      · rw [if_pos hvalid]
        have hframe := Pte.frame_eq_some.2 ⟨hvalid, rfl⟩
        have hdata := h.data source (start / pgSize) _ he (div_lt_pages hla)
          (by rw [Vm.page, Vm.pte_of_pt (by rw [div_ptSize]; exact hpt)]; exact hframe)
        refine (copyPage_spec h hd hla hframe hdata).bind fun r hr => ?_
        obtain ⟨kind', t, hgrows, hr⟩ := hr
        rcases hr with rfl | ⟨-, page, hfresh⟩
        · exact ⟨⟨kind', hgrows.reuses hd⟩, hpage, le_rfl⟩
        · have hd' : d ∈ t.pgdirs := hgrows.env.pgdirs ▸ hd
          exact ⟨⟨_, (hgrows.reuses hd).trans (hfresh.reuses hd' hQ)⟩, hpage, le_rfl⟩
      · rw [if_neg hvalid]
        exact ⟨⟨kind, Reuses.refl h⟩, hpage, le_rfl⟩

theorem copyLoop_reuses {source stop : Nat} (htop : stop ≤ userTop) (hstop : stop % pgSize = 0)
    (bound : Nat) : ∀ {kind : Nat → FrameKind} {s : Vm} {start : Nat}, Frames kind s → d ∈ s.pgdirs →
    source ∈ s.pgdirs → start % pgSize = 0 → start < stop → stop ≤ start + bound * pgSize →
    (∀ w, Between start stop w → Q w) →
    Safe (copyLoop bound s d source start stop) fun r => ∃ kind', Reuses kind kind' s r.2 d Q none := by
  induction bound with
  | zero =>
      intro kind s start _ _ _ _ hlt hbound
      omega
  | succ bound ih =>
      intro kind s start h hd he hstart hlt hbound hQ
      have hfirst : Q (start / pgSize) := hQ _ ⟨le_rfl, by unfold pgSize at *; omega⟩
      unfold copyLoop
      refine (copyStep_reuses h hd he hstart (hlt.trans_le htop) hfirst).bind fun r hr => ?_
      obtain ⟨ret, t, start'⟩ := r
      obtain ⟨⟨kind', hreuses⟩, hstart', hnext⟩ := hr
      dsimp only at hreuses hstart' hnext ⊢
      split
      · exact ⟨kind', hreuses⟩
      · split
        · next hmore =>
            refine (ih hreuses.frames (hreuses.env.pgdirs ▸ hd) (hreuses.env.pgdirs ▸ he) hstart' hmore.2
              (by rw [Nat.succ_mul] at hbound; omega) fun w hw => hQ w ⟨?_, hw.2⟩).mono fun r hr => ?_
            · exact (Nat.div_le_div_right (by omega)).trans hw.1
            · obtain ⟨kind'', hrest⟩ := hr
              exact ⟨kind'', hreuses.trans hrest⟩
        · exact ⟨kind', hreuses⟩

theorem copyRange_reuses {source start stop : Nat} (h : Frames kind s) (hd : d ∈ s.pgdirs)
    (he : source ∈ s.pgdirs) (hQ : ∀ w, Between start stop w → Q w) :
    Safe (copyRange s d source start stop) fun r => ∃ kind', Reuses kind kind' s r.2 d Q none := by
  unfold copyRange
  refine Safe.assert_bind fun ⟨hstart, hstop⟩ => Safe.assert_bind fun huser => ?_
  refine copyLoop_reuses huser.2.2 hstop _ h hd he hstart huser.2.1 ?_ hQ
  unfold pgSize at *
  omega

/-- `do_pgfault` maps a page of an area of the address space, or nothing. -/
theorem doPgfault_reuses (addr : Nat) (h : Frames kind s) (hd : d ∈ s.pgdirs)
    (hvma : ∀ vma, findVma (s.mmap d) addr = some vma → addr < userTop ∧ Q (addr / pgSize)) :
    Safe (doPgfault s d addr) fun r => ∃ kind', Reuses kind kind' s r.2 d Q none := by
  unfold doPgfault
  cases hfind : findVma (s.mmap d) addr with
  | none => exact ⟨kind, Reuses.refl h⟩
  | some vma =>
      obtain ⟨haddr, hQ⟩ := hvma vma hfind
      have hla : roundDown addr pgSize < userTop := (Nat.sub_le _ _).trans_lt haddr
      have hdiv : roundDown addr pgSize / pgSize = addr / pgSize := by
        unfold roundDown pgSize
        omega
      have hQ' : Q (roundDown addr pgSize / pgSize) := hdiv.symm ▸ hQ
      dsimp only
      refine (getPte_grows h hd hla).bind fun r hr => ?_
      obtain ⟨kind', hgrows, htable⟩ := hr
      rcases r with ⟨_ | ⟨p, i⟩, t⟩
      · exact ⟨kind', hgrows.reuses hd⟩
      · obtain ⟨hp, -⟩ := htable _ rfl
        obtain ⟨hd', -, hpt⟩ := (hgrows.frames.table p d _).1 hp
        dsimp only at hgrows hd' hpt ⊢
        split
        · refine (pgdirAllocPage_reuses hgrows.frames hd' hla hQ').bind fun r hr => ?_
          obtain ⟨kind'', hreuses⟩ := hr
          have hall := (hgrows.reuses hd).trans hreuses
          rcases r with ⟨_ | page, u⟩
          · exact ⟨kind'', hall⟩
          · exact ⟨kind'', hall⟩
        · split
          · unfold swapIn
            cases hpick : t.pmm.pick t.free with
            | none =>
                rw [allocPage_none hpick]
                split
                · trivial
                · trivial
            | some page =>
                rw [allocPage_some hpick, bind_done]
                dsimp only
                by_cases hslot : 0 < (t.mem p i >>> 8).toNat ∧ (t.mem p i >>> 8).toNat < t.maxSwapOffset
                · obtain ⟨u, hu, hfresh⟩ := pageInsert_fresh
                    (t.swap (t.mem p i >>> 8).toNat) (faultPerm vma.flags) hgrows.frames
                    hd' hla hpt (t.pmm.pick_mem _ _ hpick)
                  rw [assert_of hslot, bind_done, pure_eq_done, bind_done]
                  dsimp only
                  rw [hu]
                  exact ⟨_, (hgrows.reuses hd).trans (hfresh.reuses hd' hQ')⟩
                · rw [assert_of_not hslot]
                  trivial
          · exact ⟨kind', hgrows.reuses hd⟩

/-! ## setup_pgdir -/

/-- What `setup_pgdir` makes of a free page. -/
def Vm.newRoot (s : Vm) (page : Nat) : Vm :=
  let t := Vm.setPage { s with free := s.free.erase page } page (s.mem s.bootPgdir)
  { t with pgdirs := insert page s.pgdirs, mmap := Function.update s.mmap page [] }

/-- A new page directory has no user pages and no user tables. -/
structure AddsRoot (s t : Vm) (page : Nat) : Prop where
  walk : SameWalk s t
  next : ∀ i < userDirs, t.next page i = none
  pt : ∀ sl < userTables, t.pt page sl = none
  pte : ∀ w < userPages, t.pte page w = 0

theorem Frames.newRoot_adds (h : Frames kind s) (hpage : page ∈ s.free) :
    AddsRoot s (s.newRoot page) page := by
  have hwas := (h.free page).1 hpage
  have hnext : ∀ i < userDirs, (s.newRoot page).next page i = none := by
    intro i hi
    change Pte.frame (Function.update s.mem page (s.mem s.bootPgdir) page i) = none
    rw [Function.update_self]
    exact Pte.frame_eq_none.2 (h.boot.2 i hi)
  have hpt : ∀ sl < userTables, (s.newRoot page).pt page sl = none := by
    intro sl hsl
    rw [Vm.pt, hnext _ (div_lt_userDirs hsl)]
    rfl
  refine ⟨h.sameWalk (f := page) (fun g hg => Function.update_of_ne hg _ _) (by simp [hwas])
    (by simp [hwas]) (by simp [hwas]), hnext, hpt, ?_⟩
  intro w hw
  exact Vm.pte_of_none (hpt _ (div_lt_userTables hw))

theorem Frames.newRoot (h : Frames kind s) (hpage : page ∈ s.free) :
    Frames (Function.update kind page FrameKind.root) (s.newRoot page) := by
  have hwas := (h.free page).1 hpage
  have hadds := h.newRoot_adds hpage
  have hnotRoot : page ∉ s.pgdirs := by
    rw [h.root, hwas]
    simp
  have hmem : ∀ e, e ∈ (s.newRoot page).pgdirs ↔ e = page ∨ e ∈ s.pgdirs := fun e => Finset.mem_insert
  have hkind : ∀ k, k ≠ FrameKind.root → ∀ f,
      Function.update kind page FrameKind.root f = k ↔ f ≠ page ∧ kind f = k := by
    intro k hk f
    by_cases hf : f = page
    · subst hf
      simpa using Ne.symm hk
    · simp [hf]
  have hpages : ∀ e w, e ∈ s.pgdirs → w < userPages → (s.newRoot page).page e w = s.page e w :=
    fun e w he hw => by rw [Vm.page, hadds.walk.pte e he w hw, Vm.page]
  have hnone : ∀ w < userPages, (s.newRoot page).page page w = none := fun w hw => by
    rw [Vm.page, hadds.pte w hw, Pte.frame_zero]
  have hmaps : ∀ f, (s.newRoot page).maps f = s.maps f := by
    intro f
    ext ⟨e, w⟩
    rw [mem_maps, mem_maps, hmem]
    dsimp only
    constructor
    · rintro ⟨rfl | he, hw, hf⟩
      · rw [hnone w hw] at hf
        cases hf
      · exact ⟨he, hw, (hpages e w he hw).symm.trans hf⟩
    · rintro ⟨he, hw, hf⟩
      exact ⟨Or.inr he, hw, (hpages e w he hw).trans hf⟩
  refine ⟨?_, ?_, ?_, ?_, ?_, ?_, ?_, ?_, ?_, ?_⟩
  · intro f hf
    by_cases hfp : f = page
    · subst hfp
      exact h.pool f (by simp [hwas])
    · rw [Function.update_of_ne hfp] at hf
      exact h.pool f hf
  · intro f
    change f ∈ s.free.erase page ↔ _
    rw [Finset.mem_erase, h.free, hkind _ (by simp)]
  · intro e
    rw [hmem]
    by_cases he : e = page
    · simp [he]
    · rw [Function.update_of_ne he, ← h.root]
      simp [he]
  · intro p e i
    rw [hkind _ (by simp), hmem, h.dir]
    constructor
    · rintro ⟨-, he, hi, hp⟩
      exact ⟨Or.inr he, hi, (hadds.walk.next e he i hi).trans hp⟩
    · rintro ⟨rfl | he, hi, hp⟩
      · rw [hadds.next i hi] at hp
        cases hp
      · rw [hadds.walk.next e he i hi] at hp
        exact ⟨h.free_ne_dir hpage he hi hp, he, hi, hp⟩
  · intro p e sl
    rw [hkind _ (by simp), hmem, h.table]
    constructor
    · rintro ⟨-, he, hsl, hp⟩
      exact ⟨Or.inr he, hsl, (hadds.walk.pt e he sl hsl).trans hp⟩
    · rintro ⟨rfl | he, hsl, hp⟩
      · rw [hadds.pt sl hsl] at hp
        cases hp
      · rw [hadds.walk.pt e he sl hsl] at hp
        exact ⟨h.free_ne_table hpage he hsl hp, he, hsl, hp⟩
  · intro e w f he hw hf
    rw [hkind _ (by simp)]
    rcases (hmem e).1 he with rfl | he
    · rw [hnone w hw] at hf
      cases hf
    · rw [hpages e w he hw] at hf
      have hdata := h.data e w f he hw hf
      refine ⟨?_, hdata⟩
      rintro rfl
      rw [hwas] at hdata
      cases hdata
  · intro f hf
    obtain ⟨-, hf⟩ := (hkind _ (by simp) f).1 hf
    rw [hmaps]
    exact h.ref f hf
  · intro f hf
    rw [hkind _ (by simp), hkind _ (by simp), ← and_or_left] at hf
    exact h.unref f hf.2
  · have hne : s.bootPgdir ≠ page := h.boot_ne (by simp [hwas])
    exact (hkind _ (by simp) _).2 ⟨hne, h.boot.1⟩
  · intro i hi
    change ¬ (Function.update s.mem page (s.mem s.bootPgdir) s.bootPgdir i).Valid
    rw [Function.update_of_ne (h.boot_ne (by simp [hwas]))]
    exact h.boot.2 i hi

theorem setupPgdir_eq (s : Vm) : setupPgdir s = match s.pmm.pick s.free with
    | some page => done (some page, s.newRoot page)
    | none => if s.swapInitOk then panic else done (none, s) := by
  unfold setupPgdir
  cases hpick : s.pmm.pick s.free with
  | none =>
      rw [allocPage_none hpick]
      dsimp only
      split <;> rfl
  | some page =>
      rw [allocPage_some hpick]
      rfl

end TriOS
