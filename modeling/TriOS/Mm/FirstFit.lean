import TriOS.Library.Blocks
import TriOS.Mm.DefaultPmm

/-!
# First fit — the free list of default_pmm.c as an ordered list of blocks

`FreeList s bs` says that the circular list of the manager `s` is the list of blocks `bs`. Each
function of the manager gets one lemma that says what it does to `bs`; runs of the manager are
reasoned about with these lemmas only.
-/

namespace TriOS

open CircularList Blocks Transition

/-- The list node of the head page of a block. -/
def node (b : Block) : Option Nat :=
  some b.start

/-- The free list of `s` holds the blocks `bs`, lowest address first. -/
structure FreeList (s : Pmm) (bs : List Block) : Prop where
  ring : Ring s.freeList none (bs.map node)
  ordered : Ordered bs
  pos : ∀ b ∈ bs, 0 < b.len
  property : ∀ b ∈ bs, (s.page b.start).property = b.len
  flag : ∀ p, Covers bs p → ((s.page p).propertyFlag = true ↔ ∃ b ∈ bs, b.start = p)
  usable : ∀ p, Covers bs p → (s.page p).reserved = false
  nrFree : s.nrFree = total bs

variable {s s' : Pmm} {bs pre post : List Block} {a b x : Block} {base n fuel : Nat}

/-! ## The page loop -/

/-- The descriptors after the page loop over `base`, …, `base + n - 1`. -/
def resetTo (clear : Page → Page) (page : Nat → Page) (base n : Nat) : Nat → Page :=
  fun p => if base ≤ p ∧ p < base + n then clear (page p) else page p

theorem resetPages_eq_done {ok : Page → Bool} {clear : Page → Page} {page page' : Nat → Page} :
    resetPages ok clear page base n = Outcome.done page' ↔
      (∀ p, base ≤ p → p < base + n → ok (page p) = true) ∧
        page' = resetTo clear page base n := by
  induction n generalizing base page with
  | zero =>
      have hsame : resetTo clear page base 0 = page := by
        funext p
        simp [resetTo]
      constructor
      · intro h
        cases h
        exact ⟨fun p h1 h2 => by omega, hsame.symm⟩
      · rintro ⟨_, rfl⟩
        rw [hsame]
        rfl
  | succ n ih =>
      -- The store to `base` is not seen by the assertions on the later pages.
      have hnext : resetTo clear (Function.update page base (clear (page base))) (base + 1) n =
          resetTo clear page base (n + 1) := by
        funext p
        by_cases hp : p = base
        · subst hp
          simp [resetTo]
        · have hiff : (base + 1 ≤ p ∧ p < base + 1 + n) ↔ (base ≤ p ∧ p < base + (n + 1)) := by
            omega
          simp only [resetTo, Function.update_apply, hp, if_false, hiff]
      have hok : (∀ p, base + 1 ≤ p → p < base + 1 + n →
          ok (Function.update page base (clear (page base)) p) = true) ↔
          ∀ p, base + 1 ≤ p → p < base + 1 + n → ok (page p) = true := by
        refine forall_congr' fun p => ?_
        constructor
        · intro h h1 h2
          have hp : p ≠ base := by omega
          simpa [Function.update_apply, hp] using h h1 h2
        · intro h h1 h2
          have hp : p ≠ base := by omega
          simpa [Function.update_apply, hp] using h h1 h2
      simp only [resetPages, Outcome.bind_eq_done, Outcome.assert_eq_done, ih, hok, hnext]
      constructor
      · rintro ⟨_, h0, h1, h2⟩
        refine ⟨fun p hp1 hp2 => ?_, h2⟩
        by_cases hp : p = base
        · exact hp ▸ h0
        · exact h1 p (by omega) (by omega)
      · rintro ⟨h1, h2⟩
        exact ⟨(), h1 base le_rfl (by omega), fun p hp1 hp2 => h1 p (by omega) (by omega), h2⟩

/-! ## Insertion in address order -/

/-- The place loop stops at the first block above `base`, if there is one. -/
theorem insertLoop_eq {m : Links (Option Nat)} {d mid : List Block}
    (r : Ring m none ((d ++ mid ++ b :: post).map node))
    (hmid : ∀ a ∈ mid, ¬ base < a.start) (hb : base < b.start) (hfuel : mid.length < fuel) :
    insertLoop base fuel m ((d.map node).getLastD none) =
      Outcome.done (listAddBefore m (node b) (some base)) := by
  induction mid generalizing d fuel with
  | nil =>
      cases fuel with
      | zero => simp at hfuel
      | succ fuel =>
          have r' : Ring m none (d.map node ++ node b :: post.map node) := by
            simpa using r
          have hnext : listNext m ((d.map node).getLastD none) = some b.start :=
            r'.next_getLastD
          simp only [insertLoop, hnext, hb, if_true]
          rfl
  | cons a mid ih =>
      cases fuel with
      | zero => simp at hfuel
      | succ fuel =>
          have r' : Ring m none (d.map node ++ (a :: mid ++ b :: post).map node) := by
            simpa using r
          have hnext : listNext m ((d.map node).getLastD none) = some a.start :=
            r'.next_getLastD
          -- `a` is not the last block, so the loop only moves on.
          have r'' : Ring m none ((d ++ [a]).map node ++ (mid ++ b :: post).map node) := by
            simpa using r
          have hlast : ((d ++ [a]).map node).getLastD none = some a.start := by
            rw [List.map_append]
            exact getLastD_concat _ _ _
          have hmore : listNext m (some a.start) ≠ none := by
            have := r''.next_getLastD
            rw [hlast] at this
            unfold listNext
            rw [this]
            cases mid with
            | nil => simp [node]
            | cons c mid => simp [node]
          have hrec := @ih fuel (d ++ [a]) (by simpa using r)
            (fun c hc => hmid c (by simp [hc])) (by simpa using hfuel)
          rw [hlast] at hrec
          simp only [insertLoop, hnext, hmid a (by simp), if_false, hmore]
          exact hrec

/-- Linking in a block that has its place before some block, or in an empty list. -/
theorem insertByAddress_eq {m : Links (Option Nat)} (r : Ring m none ((pre ++ post).map node))
    (hpre : ∀ a ∈ pre, ¬ base < a.start) (hpost : ∀ b ∈ post, base < b.start)
    (hplace : pre = [] ∨ post ≠ []) (hfresh : some base ∉ (pre ++ post).map node) :
    ∃ m', (∀ fuel, pre.length < fuel → insertByAddress fuel m base = Outcome.done m') ∧
      Ring m' none (pre.map node ++ some base :: post.map node) := by
  have r' : Ring m none (pre.map node ++ post.map node) := by
    simpa using r
  have hfresh' : some base ∉ none :: (pre.map node ++ post.map node) := by
    simpa using hfresh
  unfold insertByAddress
  by_cases hempty : listEmpty m none
  · -- The list is empty: the new node becomes its only one.
    have hnil := (listEmpty_iff r).1 hempty
    have hnil' : pre = [] ∧ post = [] := by
      simpa using hnil
    rcases hnil' with ⟨rfl, rfl⟩
    refine ⟨_, fun _ _ => if_pos hempty, ?_⟩
    simpa using ring_listAdd r' hfresh'
  · cases post with
    | nil =>
        have hpre : pre = [] := by
          simpa using hplace
        subst hpre
        exact absurd ((listEmpty_iff r).2 rfl) hempty
    | cons b post =>
        have hins := ring_listAddBefore r' hfresh'
        refine ⟨_, fun fuel hfuel => ?_, hins⟩
        have hloop := @insertLoop_eq post b base fuel m [] pre (by simpa using r) hpre
          (hpost b (by simp)) hfuel
        rw [if_neg hempty]
        simpa using hloop

/-- A new block in its place: what the descriptors must say for the list to grow by it. -/
theorem FreeList.insert {page : Nat → Page} {m' : Links (Option Nat)}
    (h : FreeList s (pre ++ post)) (hx : 0 < x.len)
    (hpre : ∀ a ∈ pre, a.stop ≤ x.start) (hpost : ∀ b ∈ post, x.stop ≤ b.start)
    (hring : Ring m' none (pre.map node ++ some x.start :: post.map node))
    (hout : ∀ p, ¬ x.Mem p → page p = s.page p)
    (hprop : (page x.start).property = x.len)
    (hin : ∀ p, x.Mem p → (page p).reserved = false ∧
      ((page p).propertyFlag = true ↔ p = x.start)) :
    FreeList ⟨page, m', s.nrFree + x.len⟩ (pre ++ x :: post) := by
  have hord : Ordered (pre ++ x :: post) := ordered_middle.2 ⟨h.ordered, hpre, hpost⟩
  have hposAll : ∀ b ∈ pre ++ x :: post, 0 < b.len := by
    intro b hb
    rcases List.mem_append.1 hb with hb | hb
    · exact h.pos b (by simp [hb])
    · rcases List.mem_cons.1 hb with rfl | hb
      · exact hx
      · exact h.pos b (by simp [hb])
  -- The pages of the old blocks are not pages of `x`.
  have hsep : ∀ p, Covers (pre ++ post) p → ¬ x.Mem p := fun p hc hp => hord.not_covers hp hc
  have hstart : ∀ b ∈ pre ++ post, b.Mem b.start := by
    intro b hb
    have := h.pos b hb
    exact ⟨le_rfl, by unfold Block.stop; omega⟩
  have hxstart : x.Mem x.start := ⟨le_rfl, by unfold Block.stop; omega⟩
  have hsplit : ∀ b, b ∈ pre ++ x :: post ↔ b = x ∨ b ∈ pre ++ post := by
    intro b
    simp only [List.mem_append, List.mem_cons]
    tauto
  have hcov : ∀ p, Covers (pre ++ x :: post) p ↔ x.Mem p ∨ Covers (pre ++ post) p := by
    intro p
    simp only [covers_append, covers_cons]
    tauto
  refine ⟨?_, hord, hposAll, ?_, ?_, ?_, ?_⟩
  · simpa [node] using hring
  · intro b hb
    rcases (hsplit b).1 hb with rfl | hb
    · exact hprop
    · have hnot := hsep b.start ⟨b, hb, hstart b hb⟩
      change (page b.start).property = b.len
      rw [hout _ hnot]
      exact h.property b hb
  · intro p hp
    rcases (hcov p).1 hp with hxp | hold
    · refine (hin p hxp).2.trans ?_
      constructor
      · rintro rfl
        exact ⟨x, by simp, rfl⟩
      · rintro ⟨b, hb, rfl⟩
        rcases (hsplit b).1 hb with rfl | hb
        · rfl
        · exact absurd hxp (hsep b.start ⟨b, hb, hstart b hb⟩)
    · have hnot := hsep p hold
      change (page p).propertyFlag = true ↔ _
      rw [hout p hnot]
      refine (h.flag p hold).trans ?_
      constructor
      · rintro ⟨b, hb, hbp⟩
        exact ⟨b, (hsplit b).2 (Or.inr hb), hbp⟩
      · rintro ⟨b, hb, rfl⟩
        rcases (hsplit b).1 hb with rfl | hb
        · exact absurd hxstart hnot
        · exact ⟨b, hb, rfl⟩
  · intro p hp
    rcases (hcov p).1 hp with hxp | hold
    · exact (hin p hxp).1
    · change (page p).reserved = false
      rw [hout p (hsep p hold)]
      exact h.usable p hold
  · change s.nrFree + x.len = total (pre ++ x :: post)
    have := h.nrFree
    simp only [total_append, total_cons] at this ⊢
    omega

/-! ## Coalescing -/

/-- Two neighbours that touch become one block. -/
theorem FreeList.fuse (h : FreeList s (pre ++ a :: x :: post)) (htouch : a.stop = x.start) :
    FreeList (absorb s a.start x.start) (pre ++ ⟨a.start, a.len + x.len⟩ :: post) := by
  have ha : 0 < a.len := h.pos a (by simp)
  have hxpos : 0 < x.len := h.pos x (by simp)
  have hne : a.start ≠ x.start := by
    unfold Block.stop at htouch
    omega
  -- The old list around the pair, to locate a block on one side of it.
  have hordA := ordered_middle.1 h.ordered
  have hordX : Ordered ((pre ++ [a]) ++ x :: post) := by
    simpa using h.ordered
  have hordX' := ordered_middle.1 hordX
  have hpre : ∀ c ∈ pre, c.stop ≤ a.start := hordA.2.1
  have hpost : ∀ c ∈ post, x.stop ≤ c.start := hordX'.2.2
  have hstop : Block.stop ⟨a.start, a.len + x.len⟩ = x.stop := by
    simp only [Block.stop] at htouch ⊢
    omega
  have hcov : ∀ p, Covers (pre ++ ⟨a.start, a.len + x.len⟩ :: post) p ↔
      Covers (pre ++ a :: x :: post) p := by
    intro p
    simp only [covers_append, covers_cons, mem_fuse htouch]
    tauto
  have hother : ∀ c, c ∈ pre ++ post → c.start ≠ a.start ∧ c.start ≠ x.start := by
    intro c hc
    have hcpos : 0 < c.len := by
      refine h.pos c ?_
      rcases List.mem_append.1 hc with hc | hc
      · simp [hc]
      · simp [hc]
    rcases List.mem_append.1 hc with hc | hc
    · have := hpre c hc
      unfold Block.stop at this htouch
      omega
    · have := hpost c hc
      unfold Block.stop at this htouch
      omega
  have hpage : ∀ p, p ≠ a.start → p ≠ x.start → (absorb s a.start x.start).page p = s.page p := by
    intro p hpa hpx
    simp [absorb, Pmm.setPage, hpa, hpx]
  have hpagea : (absorb s a.start x.start).page a.start =
      { s.page a.start with property := a.len + x.len } := by
    simp [absorb, Pmm.setPage, hne, h.property a (by simp), h.property x (by simp)]
  have hpagex : (absorb s a.start x.start).page x.start =
      { s.page x.start with propertyFlag := false } := by
    simp [absorb, Pmm.setPage, hne.symm]
  have hordXX := hordX'.1
  refine ⟨?_, ?_, ?_, ?_, ?_, ?_, ?_⟩
  · have r : Ring s.freeList none ((pre ++ [a]).map node ++ some x.start :: post.map node) := by
      simpa [node] using h.ring
    have hdel := ring_listDel r
    change Ring (listDel s.freeList (some x.start)) none _
    simpa [node] using hdel
  · refine ordered_middle.2 ⟨?_, hpre, ?_⟩
    · exact (ordered_middle.1 (by simpa using hordXX)).1
    · intro c hc
      rw [hstop]
      exact hpost c hc
  · intro c hc
    rcases List.mem_append.1 hc with hc | hc
    · exact h.pos c (by simp [hc])
    · rcases List.mem_cons.1 hc with rfl | hc
      · exact Nat.add_pos_left ha _
      · exact h.pos c (by simp [hc])
  · intro c hc
    have hc' : c = ⟨a.start, a.len + x.len⟩ ∨ c ∈ pre ++ post := by
      simp only [List.mem_append, List.mem_cons] at hc ⊢
      tauto
    rcases hc' with rfl | hc'
    · change ((absorb s a.start x.start).page a.start).property = a.len + x.len
      rw [hpagea]
    · rcases hother c hc' with ⟨h1, h2⟩
      rw [hpage _ h1 h2]
      refine h.property c ?_
      simp only [List.mem_append, List.mem_cons] at hc' ⊢
      tauto
  · intro p hp
    have hold := h.flag p ((hcov p).1 hp)
    by_cases hpx : p = x.start
    · -- The head of the right block is a head no more.
      subst hpx
      rw [hpagex]
      constructor
      · intro hf
        cases hf
      · rintro ⟨c, hc, hcx⟩
        have hc' : c = ⟨a.start, a.len + x.len⟩ ∨ c ∈ pre ++ post := by
          simp only [List.mem_append, List.mem_cons] at hc ⊢
          tauto
        rcases hc' with rfl | hc'
        · exact absurd hcx hne
        · exact absurd hcx (hother c hc').2
    · have hflag : ((absorb s a.start x.start).page p).propertyFlag = (s.page p).propertyFlag := by
        by_cases hpa : p = a.start
        · subst hpa
          rw [hpagea]
        · rw [hpage p hpa hpx]
      rw [hflag]
      refine hold.trans ?_
      constructor
      · rintro ⟨c, hc, rfl⟩
        simp only [List.mem_append, List.mem_cons] at hc
        rcases hc with hc | rfl | rfl | hc
        · exact ⟨c, by simp [hc], rfl⟩
        · exact ⟨⟨c.start, c.len + x.len⟩, by simp, rfl⟩
        · exact absurd rfl hpx
        · exact ⟨c, by simp [hc], rfl⟩
      · rintro ⟨c, hc, rfl⟩
        simp only [List.mem_append, List.mem_cons] at hc
        rcases hc with hc | rfl | hc
        · exact ⟨c, by simp [hc], rfl⟩
        · exact ⟨a, by simp, rfl⟩
        · exact ⟨c, by simp [hc], rfl⟩
  · intro p hp
    have hres : ((absorb s a.start x.start).page p).reserved = (s.page p).reserved := by
      by_cases hpa : p = a.start
      · subst hpa
        rw [hpagea]
      · by_cases hpx : p = x.start
        · subst hpx
          rw [hpagex]
        · rw [hpage p hpa hpx]
    rw [hres]
    exact h.usable p ((hcov p).1 hp)
  · have := h.nrFree
    change s.nrFree = _
    simp only [total_append, total_cons] at this ⊢
    omega

/-- What the two merges of a free keep: the covered pages, and the descriptors of all others. -/
structure SameCover (s : Pmm) (bs : List Block) (s' : Pmm) (bs' : List Block) : Prop where
  list : FreeList s' bs'
  cover : ∀ p, Covers bs' p ↔ Covers bs p
  frame : ∀ p, ¬ Covers bs p → s'.page p = s.page p

theorem SameCover.trans {s₁ s₂ s₃ : Pmm} {bs₁ bs₂ bs₃ : List Block}
    (h : SameCover s₁ bs₁ s₂ bs₂) (h' : SameCover s₂ bs₂ s₃ bs₃) : SameCover s₁ bs₁ s₃ bs₃ := by
  refine ⟨h'.list, fun p => (h'.cover p).trans (h.cover p), fun p hp => ?_⟩
  rw [h'.frame p (fun hc => hp ((h.cover p).1 hc)), h.frame p hp]

theorem FreeList.sameCover_fuse (h : FreeList s (pre ++ a :: x :: post))
    (htouch : a.stop = x.start) :
    SameCover s (pre ++ a :: x :: post)
      (absorb s a.start x.start) (pre ++ ⟨a.start, a.len + x.len⟩ :: post) := by
  refine ⟨h.fuse htouch, ?_, ?_⟩
  · intro p
    simp only [covers_append, covers_cons, mem_fuse htouch]
    tauto
  · intro p hp
    have hmem : ∀ c, c ∈ pre ++ a :: x :: post → p ≠ c.start := by
      rintro c hc rfl
      have hcpos := h.pos c hc
      exact hp ⟨c, hc, le_rfl, by unfold Block.stop; omega⟩
    have hpa : p ≠ a.start := hmem a (by simp)
    have hpx : p ≠ x.start := hmem x (by simp)
    simp [absorb, Pmm.setPage, hpa, hpx]

theorem mergePrev_spec (h : FreeList s (pre ++ x :: post)) :
    ∃ pre' y, (mergePrev s x.start).1 = y.start ∧
      SameCover s (pre ++ x :: post) (mergePrev s x.start).2 (pre' ++ y :: post) ∧
      pre'.Sublist pre ∧ y.stop = x.stop ∧ (Spaced pre → ∀ c ∈ pre', c.stop < y.start) := by
  have hord := ordered_middle.1 h.ordered
  have r : Ring s.freeList none (pre.map node ++ some x.start :: post.map node) := by
    simpa [node] using h.ring
  have hprev : listPrev s.freeList (some x.start) = (pre.map node).getLastD none := r.prev_mem
  rcases List.eq_nil_or_concat pre with rfl | ⟨pre', a, rfl⟩
  · refine ⟨[], x, ?_⟩
    have hnone : listPrev s.freeList (some x.start) = none := hprev
    simp only [mergePrev, hnone]
    exact ⟨trivial, ⟨h, fun p => Iff.rfl, fun p _ => rfl⟩, List.Sublist.refl _, trivial, by simp⟩
  · have hsome : listPrev s.freeList (some x.start) = some a.start := by
      rw [hprev, List.concat_eq_append, List.map_append]
      exact getLastD_concat _ _ _
    have hprop : (s.page a.start).property = a.len := h.property a (by simp)
    have h' : FreeList s (pre' ++ a :: x :: post) := by
      simpa using h
    simp only [mergePrev, hsome, hprop]
    by_cases htouch : a.start + a.len = x.start
    · refine ⟨pre', ⟨a.start, a.len + x.len⟩, ?_⟩
      rw [if_pos htouch]
      have hfuse := h'.sameCover_fuse htouch
      refine ⟨rfl, by simpa using hfuse, by simp, ?_, ?_⟩
      · simp only [Block.stop]
        omega
      · intro hsp c hc
        have hsp' : Spaced (pre' ++ a :: []) := by
          simpa using hsp
        exact (spaced_middle.1 hsp').2.1 c hc
    · refine ⟨pre'.concat a, x, ?_⟩
      rw [if_neg htouch]
      refine ⟨rfl, ⟨h, fun p => Iff.rfl, fun p _ => rfl⟩, List.Sublist.refl _, rfl, ?_⟩
      intro hsp c hc
      have hale : a.stop ≤ x.start := hord.2.1 a (by simp)
      have halt : a.stop < x.start := lt_of_le_of_ne hale htouch
      have hsp' : Spaced (pre' ++ a :: []) := by
        simpa using hsp
      have hc' : c ∈ pre' ∨ c = a := by
        simpa using hc
      rcases hc' with hc' | rfl
      · have := (spaced_middle.1 hsp').2.1 c hc'
        unfold Block.stop at this halt ⊢
        omega
      · exact halt

theorem mergeNext_spec (h : FreeList s (pre ++ x :: post)) :
    ∃ post' y, SameCover s (pre ++ x :: post) (mergeNext s x.start) (pre ++ y :: post') ∧
      post'.Sublist post ∧ y.start = x.start ∧ x.stop ≤ y.stop ∧
      (Spaced post → ∀ c ∈ post', y.stop < c.start) := by
  have r : Ring s.freeList none (pre.map node ++ some x.start :: post.map node) := by
    simpa [node] using h.ring
  have hord : Ordered (pre ++ x :: post) := h.ordered
  have hnext : listNext s.freeList (some x.start) = (post.map node).headD none := r.next_mem
  have hxprop : (s.page x.start).property = x.len := h.property x (by simp)
  cases post with
  | nil =>
      refine ⟨[], x, ?_⟩
      have hnone : listNext s.freeList (some x.start) = none := hnext
      simp only [mergeNext, hnone]
      exact ⟨⟨h, fun p => Iff.rfl, fun p _ => rfl⟩, List.Sublist.refl _, trivial, le_rfl, by simp⟩
  | cons b post =>
      have hsome : listNext s.freeList (some x.start) = some b.start := hnext
      simp only [mergeNext, hsome, hxprop]
      by_cases htouch : x.start + x.len = b.start
      · refine ⟨post, ⟨x.start, x.len + b.len⟩, ?_⟩
        rw [if_pos htouch]
        refine ⟨h.sameCover_fuse htouch, by simp, rfl, ?_, ?_⟩
        · simp only [Block.stop]
          omega
        · intro hsp c hc
          have hlt : b.stop < c.start := (List.pairwise_cons.1 hsp).1 c hc
          simp only [Block.stop] at hlt ⊢
          omega
      · refine ⟨b :: post, x, ?_⟩
        rw [if_neg htouch]
        refine ⟨⟨h, fun p => Iff.rfl, fun p _ => rfl⟩, List.Sublist.refl _, rfl, le_rfl, ?_⟩
        intro hsp c hc
        have hle : x.stop ≤ b.start := (ordered_middle.1 hord).2.2 b (by simp)
        have hlt : x.stop < b.start := lt_of_le_of_ne hle htouch
        rcases List.mem_cons.1 hc with rfl | hc
        · exact hlt
        · have := (List.pairwise_cons.1 hsp).1 c hc
          unfold Block.stop at this hlt ⊢
          omega

/-! ## Allocation -/

theorem findFit_eq {d rest : List Block} (h : FreeList s (d ++ rest))
    (hfuel : rest.length < fuel) :
    findFit s n fuel ((d.map node).getLastD none) =
      Outcome.done ((rest.find? fun b => decide (n ≤ b.len)).map Block.start) := by
  induction rest generalizing d fuel with
  | nil =>
      cases fuel with
      | zero => simp at hfuel
      | succ fuel =>
          have r : Ring s.freeList none (d.map node ++ []) := by
            simpa using h.ring
          have hnext : listNext s.freeList ((d.map node).getLastD none) = none :=
            r.next_getLastD
          simp only [findFit, hnext]
          rfl
  | cons b rest ih =>
      cases fuel with
      | zero => simp at hfuel
      | succ fuel =>
          have r : Ring s.freeList none (d.map node ++ some b.start :: rest.map node) := by
            simpa [node] using h.ring
          have hnext : listNext s.freeList ((d.map node).getLastD none) = some b.start :=
            r.next_getLastD
          have hprop : (s.page b.start).property = b.len := h.property b (by simp)
          have hlast : ((d ++ [b]).map node).getLastD none = some b.start := by
            rw [List.map_append]
            exact getLastD_concat _ _ _
          have hrec := @ih fuel (d ++ [b]) (by simpa using h) (by simpa using hfuel)
          rw [hlast] at hrec
          simp only [findFit, hnext, hprop, ge_iff_le]
          by_cases hfit : n ≤ b.len
          · simp [hfit]
          · simp only [hfit, if_false]
            rw [hrec]
            simp [hfit]

/-- What is left of a block after `n` pages have been cut off its front. -/
def remainder (b : Block) (n : Nat) : List Block :=
  if n < b.len then [⟨b.start + n, b.len - n⟩] else []

theorem covers_remainder (hn : n ≤ b.len) {p : Nat} :
    Covers (remainder b n) p ↔ b.start + n ≤ p ∧ p < b.stop := by
  unfold remainder
  by_cases hlt : n < b.len
  · simp only [hlt, if_true, covers_cons, covers_nil, or_false, Block.Mem, Block.stop]
    omega
  · simp only [hlt, if_false, covers_nil, Block.stop, false_iff]
    omega

/-- On the pages of a free block only the head carries the flag. -/
theorem FreeList.flag_iff (h : FreeList s (pre ++ b :: post)) {p : Nat} (hp : b.Mem p) :
    (s.page p).propertyFlag = true ↔ p = b.start := by
  have hcov : Covers (pre ++ b :: post) p := ⟨b, by simp, hp⟩
  refine (h.flag p hcov).trans ?_
  constructor
  · rintro ⟨c, hc, rfl⟩
    have hc' : c = b ∨ c ∈ pre ++ post := by
      simp only [List.mem_append, List.mem_cons] at hc ⊢
      tauto
    rcases hc' with rfl | hc'
    · rfl
    · -- Another block that starts inside `b` would overlap it.
      have hcpos := h.pos c hc
      exact absurd ⟨c, hc', le_rfl, by unfold Block.stop; omega⟩ (h.ordered.not_covers hp)
  · rintro rfl
    exact ⟨b, by simp, rfl⟩

/-- Taking a block out of the list; the descriptors of its pages may change. -/
theorem FreeList.remove {page : Nat → Page} (h : FreeList s (pre ++ b :: post))
    (hout : ∀ p, ¬ b.Mem p → page p = s.page p) :
    FreeList ⟨page, listDel s.freeList (some b.start), s.nrFree - b.len⟩ (pre ++ post) := by
  have hsep : ∀ p, Covers (pre ++ post) p → ¬ b.Mem p := fun p hc hp => h.ordered.not_covers hp hc
  have hsub : ∀ c, c ∈ pre ++ post → c ∈ pre ++ b :: post := by
    intro c hc
    simp only [List.mem_append, List.mem_cons] at hc ⊢
    tauto
  have hcov : ∀ p, Covers (pre ++ post) p → Covers (pre ++ b :: post) p := by
    rintro p ⟨c, hc, hp⟩
    exact ⟨c, hsub c hc, hp⟩
  refine ⟨?_, (ordered_middle.1 h.ordered).1, fun c hc => h.pos c (hsub c hc), ?_, ?_, ?_, ?_⟩
  · have r : Ring s.freeList none (pre.map node ++ some b.start :: post.map node) := by
      simpa [node] using h.ring
    simpa using ring_listDel r
  · intro c hc
    have hcpos := h.pos c (hsub c hc)
    have hnot := hsep c.start ⟨c, hc, le_rfl, by unfold Block.stop; omega⟩
    change (page c.start).property = c.len
    rw [hout _ hnot]
    exact h.property c (hsub c hc)
  · intro p hp
    have hnot := hsep p hp
    change (page p).propertyFlag = true ↔ _
    rw [hout p hnot]
    refine (h.flag p (hcov p hp)).trans ?_
    constructor
    · rintro ⟨c, hc, rfl⟩
      have hc' : c = b ∨ c ∈ pre ++ post := by
        simp only [List.mem_append, List.mem_cons] at hc ⊢
        tauto
      rcases hc' with rfl | hc'
      · have hcpos := h.pos c hc
        exact absurd ⟨le_rfl, by unfold Block.stop; omega⟩ hnot
      · exact ⟨c, hc', rfl⟩
    · rintro ⟨c, hc, rfl⟩
      exact ⟨c, hsub c hc, rfl⟩
  · intro p hp
    change (page p).reserved = false
    rw [hout p (hsep p hp)]
    exact h.usable p (hcov p hp)
  · have := h.nrFree
    change s.nrFree - b.len = _
    simp only [total_append, total_cons] at this ⊢
    omega

/-- The descriptors after `carve`. -/
theorem carve_page (h : FreeList s (pre ++ b :: post)) (hn : 0 < n) (p : Nat) :
    (carve s b.start n).page p =
      if p = b.start then { s.page p with propertyFlag := false }
      else if n < b.len ∧ p = b.start + n then
        { s.page p with property := b.len - n, propertyFlag := true }
      else s.page p := by
  have hprop : (s.page b.start).property = b.len := h.property b (by simp)
  have hne : b.start ≠ b.start + n := by omega
  by_cases hlt : n < b.len
  · by_cases hpb : p = b.start
    · subst hpb
      simp [carve, Pmm.setPage, hprop, hlt, hn.ne']
    · by_cases hpn : p = b.start + n
      · subst hpn
        simp [carve, Pmm.setPage, hprop, hlt, hn.ne']
      · simp [carve, Pmm.setPage, hprop, hlt, hpb, hpn]
  · by_cases hpb : p = b.start
    · subst hpb
      simp [carve, Pmm.setPage, hprop, hlt]
    · simp [carve, Pmm.setPage, hprop, hlt, hpb]

theorem carve_page_of_not_mem (h : FreeList s (pre ++ b :: post)) (hn : 0 < n) {p : Nat}
    (hp : ¬ b.Mem p) : (carve s b.start n).page p = s.page p := by
  have hb := h.pos b (by simp)
  unfold Block.Mem Block.stop at hp
  rw [carve_page h hn]
  have h1 : p ≠ b.start := by omega
  have h2 : ¬ (n < b.len ∧ p = b.start + n) := by omega
  simp [h1, h2]

/-- The pages that `carve` hands out carry neither flag. -/
theorem carve_page_of_lt (h : FreeList s (pre ++ b :: post)) (hn : 0 < n) (hfit : n ≤ b.len)
    {p : Nat} (h1 : b.start ≤ p) (h2 : p < b.start + n) :
    ((carve s b.start n).page p).reserved = false ∧
      ((carve s b.start n).page p).propertyFlag = false := by
  have hp : b.Mem p := ⟨h1, by unfold Block.stop; omega⟩
  have hres := h.usable p ⟨b, by simp, hp⟩
  rw [carve_page h hn]
  by_cases hpb : p = b.start
  · simp [hpb, hpb ▸ hres]
  · have hpn : ¬ (n < b.len ∧ p = b.start + n) := by omega
    have hflag : ¬ (s.page p).propertyFlag = true := fun hf => hpb ((h.flag_iff hp).1 hf)
    simp only [hpb, hpn, if_false]
    exact ⟨hres, by simpa using hflag⟩

/-- Cutting `n` pages off a block of the list. -/
theorem FreeList.carve (h : FreeList s (pre ++ b :: post)) (hn : 0 < n) (hfit : n ≤ b.len) :
    FreeList (carve s b.start n) (pre ++ remainder b n ++ post) := by
  have hprop : (s.page b.start).property = b.len := h.property b (by simp)
  have hrem := h.remove (fun p hp => carve_page_of_not_mem h hn hp)
  have hle : b.len ≤ s.nrFree := by
    rw [h.nrFree]
    exact len_le_total (by simp)
  by_cases hlt : n < b.len
  · -- The remainder goes back to the place of the block it is cut from.
    have r : Ring s.freeList none (pre.map node ++ some b.start :: post.map node) := by
      simpa [node] using h.ring
    have hfresh : some (b.start + n) ∉ none :: (pre.map node ++ post.map node) := by
      intro hc
      have hc' : ∃ c ∈ pre ++ post, c.start = b.start + n := by
        simpa [node, or_and_right, exists_or] using hc
      rcases hc' with ⟨c, hc, hcn⟩
      have hcpos : 0 < c.len := hrem.pos c hc
      have hbn : b.Mem (b.start + n) := ⟨by omega, by unfold Block.stop; omega⟩
      refine h.ordered.not_covers hbn ⟨c, hc, ?_⟩
      unfold Block.Mem Block.stop
      omega
    have hins := ring_listAdd (ring_listDel r) hfresh
    have hord := ordered_middle.1 h.ordered
    have hlist : pre ++ remainder b n ++ post = pre ++ ⟨b.start + n, b.len - n⟩ :: post := by
      simp [remainder, hlt]
    rw [hlist]
    have hgrow := @FreeList.insert _ pre post ⟨b.start + n, b.len - n⟩ (TriOS.carve s b.start n).page
      (listAdd (listDel s.freeList (some b.start)) (listPrev s.freeList (some b.start))
        (some (b.start + n)))
      hrem (by simpa using hlt)
      (fun c hc => le_trans (hord.2.1 c hc) (Nat.le_add_right _ _))
      (fun c hc => le_trans (by simp only [Block.stop]; omega) (hord.2.2 c hc))
      (by
        have hprev : listPrev s.freeList (some b.start) = (pre.map node).getLastD none := r.prev_mem
        rw [hprev]
        exact hins)
      (fun p _ => rfl)
      (by
        change ((TriOS.carve s b.start n).page (b.start + n)).property = _
        rw [carve_page h hn]
        simp [hlt, hn.ne'])
      (by
        intro p hp
        rcases hp with ⟨hp1, hp2⟩
        have hp1 : b.start + n ≤ p := hp1
        have hp2 : p < b.start + n + (b.len - n) := hp2
        have hpb : b.Mem p := ⟨by omega, by unfold Block.stop; omega⟩
        have hne : p ≠ b.start := by omega
        have hres := h.usable p ⟨b, by simp, hpb⟩
        have hflag : ¬ (s.page p).propertyFlag = true := fun hf => hne ((h.flag_iff hpb).1 hf)
        rw [carve_page h hn]
        by_cases hpn : p = b.start + n
        · rw [if_neg hne, if_pos ⟨hlt, hpn⟩]
          exact ⟨hres, iff_of_true rfl hpn⟩
        · simp only [hne, hpn, and_false, if_false, iff_false]
          exact ⟨hres, hflag⟩)
    have hnr : s.nrFree - b.len + (b.len - n) = s.nrFree - n := by omega
    have hstate : TriOS.carve s b.start n =
        ⟨(TriOS.carve s b.start n).page,
          listAdd (listDel s.freeList (some b.start)) (listPrev s.freeList (some b.start))
            (some (b.start + n)), s.nrFree - n⟩ := by
      simp [TriOS.carve, Pmm.setPage, hprop, hlt]
    rw [hstate]
    simpa [hnr] using hgrow
  · have hbn : b.len = n := by omega
    have hlist : pre ++ remainder b n ++ post = pre ++ post := by
      simp [remainder, hlt]
    have hstate : TriOS.carve s b.start n =
        ⟨(TriOS.carve s b.start n).page, listDel s.freeList (some b.start), s.nrFree - b.len⟩ := by
      simp [TriOS.carve, Pmm.setPage, hprop, hbn]
    rw [hlist, hstate]
    exact hrem

end TriOS
