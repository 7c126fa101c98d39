import TriOS.Libs.List
import TriOS.Library.Outcome
import TriOS.Library.Recency
import TriOS.Library.Transition

/-!
# swap_lru.c — the least recently used page

`_lru_map_swappable` unlinks the node of the page without asking if it is linked. The node of a page
that is not in the list holds what the memory held before, or the links that it had in the list when
the page was evicted. A store through `NULL` is a page fault of the kernel, which stops the machine.
-/

namespace TriOS

open CircularList Outcome Recency Transition

/-- The addresses that a link can hold: `NULL`, `pra_list_head`, the `pra_page_link` of a page, and
all others. -/
inductive LruNode where
  | null
  | head
  | page (p : Nat)
  | other (addr : Nat)
  deriving DecidableEq, Repr

/-- `list_del`, with the faults of its two stores. -/
def lruListDel (m : Links LruNode) (entry : LruNode) : Outcome (Links LruNode) := do
  assert (m.prev entry ≠ LruNode.null)
  assert (m.next entry ≠ LruNode.null)
  pure (listDel m entry)

/-- `_lru_init_mm` -/
def lruInitMm (m : Links LruNode) : Links LruNode :=
  listInit m LruNode.head

/-- `_lru_map_swappable` -/
def lruMapSwappable (m : Links LruNode) (page : Nat) : Outcome (Links LruNode) := do
  let m ← lruListDel m (LruNode.page page)
  pure (listAdd m LruNode.head (LruNode.page page))

/-- `_lru_swap_out_victim`; the page is named by its node. -/
def lruSwapOutVictim (m : Links LruNode) (inTick : Int) :
    Outcome (Option LruNode × Links LruNode) := do
  assert (inTick = 0)
  let entry := listPrev m LruNode.head
  if entry ≠ LruNode.head then do
    let m ← lruListDel m entry
    pure (some entry, m)
  else pure (none, m)

/-! ## The list of pages -/

/-- The list holds the pages in this order. -/
def LruList (m : Links LruNode) (l : List Nat) : Prop :=
  Ring m LruNode.head (l.map LruNode.page)

/-- The node is one of the list. -/
def InLru (m : Links LruNode) (x : LruNode) : Prop :=
  ∃ l, LruList m l ∧ x ∈ LruNode.head :: l.map LruNode.page

/-- The page is in the list, or the stores of `list_del` through the links of its node leave the list
as it is: they go to other memory, or store what is there, or store in front of the first page,
where `list_add` stores again. -/
def Unlinkable (m : Links LruNode) (page : Nat) : Prop :=
  let entry := LruNode.page page
  InLru m entry ∨
    (m.prev entry ≠ LruNode.null ∧ m.next entry ≠ LruNode.null ∧
      (InLru m (m.prev entry) → m.next (m.prev entry) = m.next entry) ∧
      (InLru m (m.next entry) → m.prev (m.next entry) = m.prev entry ∨
        m.next entry = m.next LruNode.head))

variable {m m' : Links LruNode} {l pre post : List Nat} {p q : Nat} {x : LruNode}

theorem LruList.mem_iff (h : LruList m l) : InLru m x ↔ x ∈ LruNode.head :: l.map LruNode.page := by
  constructor
  · rintro ⟨l', h', hx⟩
    rcases List.mem_cons.1 hx with rfl | hx
    · exact List.mem_cons_self
    · exact List.mem_cons_of_mem _ ((Ring.mem_iff h h' x).2 hx)
  · exact fun hx => ⟨l, h, hx⟩

theorem LruList.page_mem_iff (h : LruList m l) : InLru m (LruNode.page p) ↔ p ∈ l := by
  rw [h.mem_iff]
  simp

/-- The links of the list are no null pointers. -/
theorem LruList.ne_null (h : LruList m l) (hx : x ∈ LruNode.head :: l.map LruNode.page) :
    m.prev x ≠ LruNode.null ∧ m.next x ≠ LruNode.null := by
  have hnull : ∀ y ∈ LruNode.head :: l.map LruNode.page, y ≠ LruNode.null := by
    rintro y hy rfl
    simp at hy
  have hnext := (Ring.prev_next h hx).2
  refine ⟨?_, hnull _ hnext⟩
  rcases List.mem_cons.1 hx with rfl | hx
  · rw [Ring.prev_head h]
    rcases List.eq_nil_or_concat l with rfl | ⟨us, u, rfl⟩
    · simp
    · simp
  · rcases List.append_of_mem hx with ⟨us, vs, hsplit⟩
    have hring : Ring m LruNode.head (us ++ x :: vs) := hsplit ▸ h
    rw [hring.prev_mem]
    rcases List.eq_nil_or_concat us with rfl | ⟨zs, z, rfl⟩
    · simp
    · refine hnull _ ?_
      rw [List.concat_eq_append, getLastD_concat, hsplit]
      simp

theorem lruListDel_of_ne (h : m.prev x ≠ LruNode.null) (h' : m.next x ≠ LruNode.null) :
    lruListDel m x = done (listDel m x) := by
  unfold lruListDel
  rw [assert_of h, assert_of h']
  rfl

theorem lruMapSwappable_of_ne (h : m.prev (LruNode.page p) ≠ LruNode.null)
    (h' : m.next (LruNode.page p) ≠ LruNode.null) :
    lruMapSwappable m p =
      done (listAdd (listDel m (LruNode.page p)) LruNode.head (LruNode.page p)) := by
  unfold lruMapSwappable
  rw [lruListDel_of_ne h h']
  rfl

/-! ## The two functions -/

/-- A page that is in the list goes to its front. -/
theorem LruList.map_mem (h : LruList m l) (hnd : l.Nodup) (hp : p ∈ l) :
    ∃ m', lruMapSwappable m p = done m' ∧ LruList m' (p :: l.erase p) := by
  obtain ⟨pre, post, rfl⟩ := List.append_of_mem hp
  have hnotin : p ∉ pre := by
    have hdis := (List.nodup_append.1 hnd).2.2
    exact fun hc => hdis p hc p List.mem_cons_self rfl
  have herase : (pre ++ p :: post).erase p = pre ++ post := by
    rw [List.erase_append_right _ hnotin, List.erase_cons_head]
  have hmem : LruNode.page p ∈ LruNode.head :: (pre ++ p :: post).map LruNode.page := by
    simp
  have hnull := h.ne_null hmem
  have hring : Ring m LruNode.head (pre.map LruNode.page ++ LruNode.page p ::
      post.map LruNode.page) := by
    simpa [LruList] using h
  have hrest : LruNode.page p ∉ LruNode.head ::
      ([] ++ (pre.map LruNode.page ++ post.map LruNode.page)) := by
    have hnd' := List.nodup_middle.1 hnd
    have hfree := (List.nodup_cons.1 hnd').1
    simpa using hfree
  have hdel := ring_listDel hring
  have hdel' : Ring (listDel m (LruNode.page p)) LruNode.head
      ([] ++ (pre.map LruNode.page ++ post.map LruNode.page)) := hdel
  refine ⟨_, lruMapSwappable_of_ne hnull.1 hnull.2, ?_⟩
  rw [herase]
  simpa [LruList] using ring_listAdd hdel' hrest

/-- The node of a page that is not in the list: the stores of `list_del` do no harm. -/
theorem LruList.map_of_unlinkable (h : LruList m l) (hp : p ∉ l) (hok : Unlinkable m p) :
    ∃ m', lruMapSwappable m p = done m' ∧ LruList m' (p :: l) := by
  obtain ⟨hprev, hnext, hstore, hback⟩ := hok.resolve_left fun hc => hp (h.page_mem_iff.1 hc)
  have hfresh : LruNode.page p ∉ LruNode.head :: ([] ++ l.map LruNode.page) := by
    simpa using hp
  have hring : Ring m LruNode.head ([] ++ l.map LruNode.page) := h
  have hadd := ring_listAdd hring hfresh
  -- The stores of `list_del` that reach the list are overwritten, or store what is there.
  have hfirst : (listDel m (LruNode.page p)).next LruNode.head = m.next LruNode.head := by
    unfold listDel listDelBetween
    rw [Links.setPrev_next, Links.setNext_next]
    split
    · rename_i heq
      rw [← hstore (heq ▸ h.mem_iff.2 List.mem_cons_self), ← heq]
    · rfl
  refine ⟨_, lruMapSwappable_of_ne hprev hnext, ?_⟩
  · refine Ring.congr hadd ?_ ?_
    · intro x hx
      change (listAdd (listDel m (LruNode.page p)) LruNode.head (LruNode.page p)).next x =
        (listAdd m LruNode.head (LruNode.page p)).next x
      simp only [listAdd, listAddAfter, listAddBetween, Links.setPrev_next, Links.setNext_next,
        hfirst]
      split
      · rfl
      · rename_i hxp
        split
        · rfl
        · unfold listDel listDelBetween
          rw [Links.setPrev_next, Links.setNext_next]
          split
          · rename_i heq
            have hin : InLru m x := by
              rw [h.mem_iff]
              simpa [hxp] using hx
            rw [heq]
            exact (hstore (heq ▸ hin)).symm
          · rfl
    · intro x hx
      change (listAdd (listDel m (LruNode.page p)) LruNode.head (LruNode.page p)).prev x =
        (listAdd m LruNode.head (LruNode.page p)).prev x
      simp only [listAdd, listAddAfter, listAddBetween, Links.setPrev_prev, Links.setNext_prev,
        hfirst]
      split
      · rfl
      · rename_i hxp
        split
        · rfl
        · rename_i hxn
          unfold listDel listDelBetween
          rw [Links.setPrev_prev, Links.setNext_prev]
          split
          · rename_i heq
            have hin : InLru m x := by
              rw [h.mem_iff]
              simpa [hxp] using hx
            rw [heq]
            rcases hback (heq ▸ hin) with hsame | hfront
            · exact hsame.symm
            · exact absurd (heq.trans hfront) hxn
          · rfl

/-- If the list is what it should be after the call then the stores of `list_del` did no harm. -/
theorem LruList.unlinkable_of_map (h : LruList m l) (hp : p ∉ l)
    (hcall : lruMapSwappable m p = done m') (h' : LruList m' (p :: l)) : Unlinkable m p := by
  have hnull : m.prev (LruNode.page p) ≠ LruNode.null ∧ m.next (LruNode.page p) ≠ LruNode.null := by
    simp only [lruMapSwappable, lruListDel, bind_eq_done, assert_eq_done] at hcall
    obtain ⟨_, ⟨_, hprev, _, hnext, _⟩, _⟩ := hcall
    exact ⟨hprev, hnext⟩
  rw [lruMapSwappable_of_ne hnull.1 hnull.2] at hcall
  have hm' := (done.inj hcall).symm
  generalize hP : m.prev (LruNode.page p) = P at hnull
  generalize hN : m.next (LruNode.page p) = N at hnull
  -- The first node after the two stores of `list_del`, and the links after the call.
  have hnextOf : ∀ x, x ≠ LruNode.page p → x ≠ LruNode.head →
      m'.next x = if x = P then N else m.next x := by
    intro x hxp hxh
    subst hm'
    simp only [listAdd, listAddAfter, listAddBetween, listDel, listDelBetween, Links.setPrev_next,
      Links.setNext_next, hP, hN, if_neg hxp, if_neg hxh]
  have hfirst : m'.next (LruNode.page p) = if LruNode.head = P then N else m.next LruNode.head := by
    subst hm'
    simp only [listAdd, listAddAfter, listAddBetween, listDel, listDelBetween, Links.setPrev_next,
      Links.setNext_next, hP, hN, if_true]
  have hprevOf : ∀ x, x ≠ LruNode.page p → x ≠ m'.next (LruNode.page p) →
      m'.prev x = if x = N then P else m.prev x := by
    intro x hxp hxn
    rw [hfirst] at hxn
    subst hm'
    simp only [listAdd, listAddAfter, listAddBetween, listDel, listDelBetween, Links.setPrev_prev,
      Links.setNext_prev, Links.setPrev_next, Links.setNext_next, hP, hN, if_neg hxp, if_neg hxn]
  have hring : Ring m LruNode.head ([] ++ l.map LruNode.page) := h
  have hring' : Ring m' LruNode.head ([LruNode.page p] ++ l.map LruNode.page) := h'
  have hfront : m'.next (LruNode.page p) = m.next LruNode.head := by
    have h1 := hring'.next_getLastD
    have h2 := hring.next_getLastD
    exact h1.trans h2.symm
  have hne : ∀ x ∈ l.map LruNode.page, x ≠ LruNode.page p ∧ x ≠ LruNode.head := by
    intro x hx
    obtain ⟨q, hq, rfl⟩ := List.mem_map.1 hx
    refine ⟨fun hc => hp ?_, by simp⟩
    rw [← LruNode.page.inj hc]
    exact hq
  refine Or.inr ⟨hP ▸ hnull.1, hN ▸ hnull.2, fun hin => ?_, fun hin => ?_⟩
  · rw [hP] at hin ⊢
    rw [hN]
    rcases List.mem_cons.1 (h.mem_iff.1 hin) with hhead | hmem
    · -- `head->next` is what `list_add` reads afterwards.
      rw [if_pos hhead.symm] at hfirst
      rw [hhead, ← hfront, hfirst]
    · obtain ⟨us, vs, hsplit⟩ := List.append_of_mem hmem
      have hold : Ring m LruNode.head (us ++ P :: vs) := hsplit ▸ h
      have hnew : Ring m' LruNode.head ((LruNode.page p :: us) ++ P :: vs) := by
        rw [List.cons_append, ← hsplit]
        exact h'
      have hsame : m'.next P = m.next P := hnew.next_mem.trans hold.next_mem.symm
      rw [hnextOf P (hne P hmem).1 (hne P hmem).2, if_pos rfl] at hsame
      exact hsame.symm
  · rw [hN] at hin ⊢
    rw [hP]
    by_cases hfirstN : N = m.next LruNode.head
    · exact Or.inr hfirstN
    · left
      have hNp : N ≠ LruNode.page p := by
        rintro rfl
        exact hp (h.page_mem_iff.1 hin)
      have hstored := hprevOf N hNp (by rw [hfront]; exact hfirstN)
      rw [if_pos rfl] at hstored
      -- `N` is not the first node, so its predecessor is the same in both lists.
      rw [← hstored]
      rcases List.mem_cons.1 (h.mem_iff.1 hin) with rfl | hmem
      · rw [Ring.prev_head h, Ring.prev_head h']
        rcases List.eq_nil_or_concat l with rfl | ⟨us, u, rfl⟩
        · exact absurd (Ring.next_head h).symm hfirstN
        · have hlast := getLastD_concat (LruNode.page p :: us.map LruNode.page) (LruNode.page u)
            LruNode.head
          simpa using hlast.symm
      · obtain ⟨us, vs, hsplit⟩ := List.append_of_mem hmem
        have hold : Ring m LruNode.head (us ++ N :: vs) := hsplit ▸ h
        have hnew : Ring m' LruNode.head ((LruNode.page p :: us) ++ N :: vs) := by
          rw [List.cons_append, ← hsplit]
          exact h'
        rw [hold.prev_mem, hnew.prev_mem]
        rcases List.eq_nil_or_concat us with rfl | ⟨zs, z, rfl⟩
        · refine absurd ?_ hfirstN
          rw [Ring.next_head hold]
          rfl
        · rw [List.concat_eq_append, getLastD_concat]
          exact (getLastD_concat (LruNode.page p :: zs) z LruNode.head).symm

/-- `_lru_map_swappable` does what it should exactly if the stores of `list_del` do no harm. -/
theorem LruList.map_iff (h : LruList m l) (hnd : l.Nodup) (p : Nat) :
    (∃ m', lruMapSwappable m p = done m' ∧ LruList m' (p :: l.erase p)) ↔ Unlinkable m p := by
  by_cases hp : p ∈ l
  · exact iff_of_true (h.map_mem hnd hp) (Or.inl (h.page_mem_iff.2 hp))
  · rw [List.erase_of_not_mem hp]
    exact ⟨fun ⟨m', hcall, h'⟩ => h.unlinkable_of_map hp hcall h', h.map_of_unlinkable hp⟩

/-- The last page of the list is taken out. -/
theorem LruList.victim (h : LruList m (l ++ [p])) :
    ∃ m', lruSwapOutVictim m 0 = done (some (LruNode.page p), m') ∧ LruList m' l := by
  have hlast : listPrev m LruNode.head = LruNode.page p := by
    unfold listPrev
    rw [Ring.prev_head h]
    simp
  have hne : LruNode.page p ≠ LruNode.head := by simp
  have hnull := h.ne_null (x := LruNode.page p) (by simp)
  have hring : Ring m LruNode.head (l.map LruNode.page ++ LruNode.page p :: []) := by
    simpa [LruList] using h
  refine ⟨listDel m (LruNode.page p), ?_, ?_⟩
  · simp [lruSwapOutVictim, hlast, lruListDel_of_ne hnull.1 hnull.2]
  · simpa [LruList] using ring_listDel hring

theorem LruList.victim_nil (h : LruList m []) : lruSwapOutVictim m 0 = done (none, m) := by
  have hlast : listPrev m LruNode.head = LruNode.head := Ring.prev_head h
  simp [lruSwapOutVictim, hlast]

/-! ## Runs -/

/-- One call, with the victim of an eviction. -/
def LruStep (m : Links LruNode) (op : Event Nat) (m' : Links LruNode) : Prop :=
  match op with
  | Event.touch p => lruMapSwappable m p = done m'
  | Event.evict v => lruSwapOutVictim m 0 = done (v.map LruNode.page, m')

/-- The calls whose `list_del` does no harm. -/
def LruOk (m : Links LruNode) : Event Nat → Prop
  | Event.touch p => Unlinkable m p
  | Event.evict _ => True

/-- The list holds each resident page once, in the order of the last calls of `map_swappable`. -/
def LruInv (m : Links LruNode) (ops : List (Event Nat)) : Prop :=
  ∃ l, LruList m l ∧ Recent ops.reverse l

variable {ops : List (Event Nat)} {op : Event Nat}

theorem LruInv.step (h : LruInv m ops) (hok : LruOk m op) (hstep : LruStep m op m') :
    LruInv m' (ops ++ [op]) := by
  obtain ⟨l, hl, hrecent⟩ := h
  unfold LruInv
  rw [List.reverse_append, List.reverse_singleton, List.singleton_append]
  cases op with
  | touch p =>
      obtain ⟨m'', hcall, hl'⟩ := (hl.map_iff hrecent.nodup p).2 hok
      have hstep' : lruMapSwappable m p = done m' := hstep
      rw [hcall] at hstep'
      cases hstep'
      exact ⟨_, hl', hrecent.touch p⟩
  | evict v =>
      have hstep' : lruSwapOutVictim m 0 = done (v.map LruNode.page, m') := hstep
      rcases List.eq_nil_or_concat l with rfl | ⟨l', q, rfl⟩
      · rw [hl.victim_nil] at hstep'
        cases v with
        | none =>
            cases hstep'
            exact ⟨[], hl, hrecent.evict_none⟩
        | some q => cases hstep'
      · rw [List.concat_eq_append] at hl hrecent
        obtain ⟨m'', hcall, hl'⟩ := hl.victim
        rw [hcall] at hstep'
        cases v with
        | none => cases hstep'
        | some p =>
            cases hstep'
            exact ⟨l', hl', hrecent.evict⟩

/-- `swap_out_victim` returns the page with the oldest call of `map_swappable`, or finds none if no
page is resident. -/
def EvictsOldest (m : Links LruNode) (ops : List (Event Nat)) : Prop :=
  ∃ v m', LruStep m (Event.evict v) m' ∧ LruInv m' (ops ++ [Event.evict v]) ∧
    match v with
    | none => ∀ p, ¬ Resident p ops.reverse
    | some p => Resident p ops.reverse ∧
        ∀ q, Resident q ops.reverse → q ≠ p → lastTouch p ops.reverse < lastTouch q ops.reverse

theorem LruInv.evictsOldest (h : LruInv m ops) : EvictsOldest m ops := by
  obtain ⟨l, hl, hrecent⟩ := h
  rcases List.eq_nil_or_concat l with rfl | ⟨l', q, rfl⟩
  · have hcall : LruStep m (Event.evict none) m := hl.victim_nil
    refine ⟨none, m, hcall, LruInv.step ⟨[], hl, hrecent⟩ trivial hcall, fun p hp => ?_⟩
    cases (hrecent.mem p).2 hp
  · rw [List.concat_eq_append] at hl hrecent
    obtain ⟨m', hcall, _⟩ := hl.victim
    have hcall' : LruStep m (Event.evict (some q)) m' := hcall
    exact ⟨some q, m', hcall', LruInv.step ⟨_, hl, hrecent⟩ trivial hcall', hrecent.oldest⟩

/-- Runs in which each call unlinks a page that is in the list, or does no harm: the list holds each
resident page once, in the order of the last calls, and the page with the oldest call is evicted. The
condition is exact for each call: without it the page does not get to the front of the list. -/
theorem lru_order_kept {m t : Links LruNode} {ops : List (Event Nat)}
    (hrun : Run (Guarded LruOk LruStep) (lruInitMm m) ops t) :
    LruInv t ops ∧ EvictsOldest t ops ∧
      ∀ p, (∃ u, LruStep t (Event.touch p) u ∧ LruInv u (ops ++ [Event.touch p])) ↔
        LruOk t (Event.touch p) := by
  have hinv : LruInv t ops :=
    hrun.trace_invariant (fun ops t => LruInv t ops) (fun _ _ _ _ h ⟨hok, hstep⟩ => h.step hok hstep)
      ⟨[], ring_listInit _ _, recent_nil⟩
  refine ⟨hinv, hinv.evictsOldest, fun p => ?_⟩
  obtain ⟨l, hl, hrecent⟩ := hinv
  refine ⟨?_, fun hok => ?_⟩
  · rintro ⟨u, hstep, l', hl', hrecent'⟩
    refine (hl.map_iff hrecent.nodup p).1 ⟨u, hstep, ?_⟩
    -- The order is determined by the history.
    have hwant := hrecent.touch p
    rw [List.reverse_append, List.reverse_singleton, List.singleton_append] at hrecent'
    rw [← hrecent'.unique hwant]
    exact hl'
  · obtain ⟨u, hcall, _⟩ := (hl.map_iff hrecent.nodup p).2 hok
    exact ⟨u, hcall, LruInv.step ⟨l, hl, hrecent⟩ hok hcall⟩

/-! ## Runs on fixed pages -/

/-- The links of pages whose memory has not been written yet. -/
def zeroLinks : Links LruNode where
  next := fun _ => LruNode.null
  prev := fun _ => LruNode.null

/-- The links of pages whose memory held pointers to other memory. -/
def junkLinks : Links LruNode where
  next := fun _ => LruNode.other 0
  prev := fun _ => LruNode.other 0

/-- The list after some calls that return; the last call comes first. -/
def afterLru (m : Links LruNode) : List (Event Nat) → Links LruNode
  | [] => lruInitMm m
  | Event.touch p :: ops =>
      listAdd (listDel (afterLru m ops) (LruNode.page p)) LruNode.head (LruNode.page p)
  | Event.evict none :: ops => afterLru m ops
  | Event.evict (some p) :: ops => listDel (afterLru m ops) (LruNode.page p)

theorem lruStep_evict (hlast : m.prev LruNode.head = LruNode.page p)
    (h : m.prev (LruNode.page p) ≠ LruNode.null) (h' : m.next (LruNode.page p) ≠ LruNode.null) :
    LruStep m (Event.evict (some p)) (listDel m (LruNode.page p)) := by
  have hlast' : listPrev m LruNode.head = LruNode.page p := hlast
  simp [LruStep, lruSwapOutVictim, hlast', lruListDel_of_ne h h']

/-- Pages 0, 1 and 2 come in, 0 and 1 go out, and the frame of 0 is used again. -/
def reuseOps : List (Event Nat) :=
  [Event.touch 0, Event.touch 1, Event.touch 2, Event.evict (some 0), Event.evict (some 1),
    Event.touch 0]

/-- The first call for a new page whose memory is zero stops the machine. When a frame is used again
after another eviction, its old links make the list end with the page that is gone, and this page is
evicted a second time. -/
theorem lru_list_broken :
    (¬ ∃ u, LruStep (lruInitMm zeroLinks) (Event.touch 0) u) ∧
    ∃ t u, Run LruStep (lruInitMm junkLinks) reuseOps t ∧ ¬ LruInv t reuseOps ∧
      LruStep t (Event.evict (some 1)) u ∧ ¬ Resident 1 reuseOps.reverse := by
  have hgone : ¬ Resident 1 reuseOps.reverse := by
    simp [reuseOps, Resident]
  have htouch : ∀ {m p}, m.prev (LruNode.page p) ≠ LruNode.null →
      m.next (LruNode.page p) ≠ LruNode.null → LruStep m (Event.touch p)
        (listAdd (listDel m (LruNode.page p)) LruNode.head (LruNode.page p)) :=
    lruMapSwappable_of_ne
  have hagain : LruStep (afterLru junkLinks reuseOps.reverse) (Event.evict (some 1))
      (afterLru junkLinks (Event.evict (some 1) :: reuseOps.reverse)) :=
    lruStep_evict (by decide +kernel) (by decide +kernel) (by decide +kernel)
  refine ⟨?_, afterLru junkLinks reuseOps.reverse,
    afterLru junkLinks (Event.evict (some 1) :: reuseOps.reverse), ?_, ?_, hagain, hgone⟩
  · rintro ⟨u, hu⟩
    cases hu
  · refine Run.cons (t := afterLru junkLinks (reuseOps.take 1).reverse) ?_ ?_
    · exact htouch (by decide +kernel) (by decide +kernel)
    refine Run.cons (t := afterLru junkLinks (reuseOps.take 2).reverse) ?_ ?_
    · exact htouch (by decide +kernel) (by decide +kernel)
    refine Run.cons (t := afterLru junkLinks (reuseOps.take 3).reverse) ?_ ?_
    · exact htouch (by decide +kernel) (by decide +kernel)
    refine Run.cons (t := afterLru junkLinks (reuseOps.take 4).reverse) ?_ ?_
    · exact lruStep_evict (by decide +kernel) (by decide +kernel) (by decide +kernel)
    refine Run.cons (t := afterLru junkLinks (reuseOps.take 5).reverse) ?_ ?_
    · exact lruStep_evict (by decide +kernel) (by decide +kernel) (by decide +kernel)
    refine Run.cons ?_ Run.nil
    exact htouch (by decide +kernel) (by decide +kernel)
  · intro h
    obtain ⟨v, m', hstep, -, hv⟩ := h.evictsOldest
    have hcall : lruSwapOutVictim (afterLru junkLinks reuseOps.reverse) 0 =
        done (some (LruNode.page 1),
          afterLru junkLinks (Event.evict (some 1) :: reuseOps.reverse)) := hagain
    have hstep' : lruSwapOutVictim (afterLru junkLinks reuseOps.reverse) 0 =
        done (v.map LruNode.page, m') := hstep
    rw [hcall] at hstep'
    have hone : some (LruNode.page 1) = v.map LruNode.page := (Prod.mk.inj (done.inj hstep')).1
    cases v with
    | none => cases hone
    | some p =>
        have hp : 1 = p := LruNode.page.inj (Option.some.inj hone)
        subst hp
        exact hgone hv.1

/-- Two pages whose memory pointed elsewhere, and a second call for the first: the other one is the
oldest. -/
theorem lru_order_kept_two :
    LruInv (afterLru junkLinks [Event.touch 0, Event.touch 1, Event.touch 0])
      [Event.touch 0, Event.touch 1, Event.touch 0] ∧
    EvictsOldest (afterLru junkLinks [Event.touch 0, Event.touch 1, Event.touch 0])
      [Event.touch 0, Event.touch 1, Event.touch 0] := by
  have hstart : LruList (lruInitMm junkLinks) [] := ring_listInit _ _
  have hok0 : LruOk (lruInitMm junkLinks) (Event.touch 0) := by
    refine Or.inr ⟨by decide, by decide, fun hin => ?_, fun hin => ?_⟩
    · exact absurd (hstart.mem_iff.1 hin) (by decide)
    · exact absurd (hstart.mem_iff.1 hin) (by decide)
  have hone : LruList (afterLru junkLinks [Event.touch 0]) [0] := by
    obtain ⟨m', hcall, h⟩ := (hstart.map_iff List.nodup_nil 0).2 hok0
    have hm' : afterLru junkLinks [Event.touch 0] = m' := by
      rw [lruMapSwappable_of_ne (by decide) (by decide)] at hcall
      exact done.inj hcall
    rw [hm']
    exact h
  have hok1 : LruOk (afterLru junkLinks [Event.touch 0]) (Event.touch 1) := by
    refine Or.inr ⟨by decide, by decide, fun hin => ?_, fun hin => ?_⟩
    · exact absurd (hone.mem_iff.1 hin) (by decide)
    · exact absurd (hone.mem_iff.1 hin) (by decide)
  have htwo : LruList (afterLru junkLinks [Event.touch 1, Event.touch 0]) [1, 0] := by
    obtain ⟨m', hcall, h⟩ := (hone.map_iff (List.nodup_singleton 0) 1).2 hok1
    have hm' : afterLru junkLinks [Event.touch 1, Event.touch 0] = m' := by
      rw [lruMapSwappable_of_ne (by decide) (by decide)] at hcall
      exact done.inj hcall
    rw [hm']
    exact h
  have hrun : Run (Guarded LruOk LruStep) (lruInitMm junkLinks)
      [Event.touch 0, Event.touch 1, Event.touch 0]
      (afterLru junkLinks [Event.touch 0, Event.touch 1, Event.touch 0]) := by
    refine Run.cons (t := afterLru junkLinks [Event.touch 0]) ⟨hok0, ?_⟩ ?_
    · exact lruMapSwappable_of_ne (by decide) (by decide)
    refine Run.cons (t := afterLru junkLinks [Event.touch 1, Event.touch 0]) ⟨hok1, ?_⟩ ?_
    · exact lruMapSwappable_of_ne (by decide) (by decide)
    refine Run.cons ⟨Or.inl (htwo.page_mem_iff.2 (by simp)), ?_⟩ Run.nil
    exact lruMapSwappable_of_ne (by decide) (by decide)
  have h := lru_order_kept hrun
  exact ⟨h.1, h.2.1⟩

end TriOS
