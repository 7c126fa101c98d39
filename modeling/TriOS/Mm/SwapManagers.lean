import TriOS.Mm.SwapClock
import TriOS.Mm.SwapMmRuns

/-!
# SwapManagers — the clock and the queue as swap managers

`swap_manager_clock`, which is the one in use, and `swap_manager_fifo` keep their pages in a list of the links
`pra_page_link`. The hand of the clock may rest on the link of a page that is not in the list any more, or that came
back to the end of the list. It still finds a page of the list, and so both of them evict only what they recorded.
-/

namespace TriOS
namespace SwapMm

open CircularList Outcome Coherence Transition

/-- `le2page`, for a link that is not the head of the list -/
def le2page : PraNode → Option Nat
  | PraNode.head => none
  | PraNode.page p => some p

/-- `swap_manager_clock` -/
def clockManager : SwapManager (SwapClock PraNode) where
  mapSwappable s page := pure (clockMapSwappable s PraNode.head (PraNode.page page))
  swapOutVictim bound s := do
    let r ← clockSwapOutVictim PraNode.head bound s 0
    pure (r.1.bind le2page, r.2)

/-- `swap_manager_fifo` -/
def fifoManager : SwapManager (Links PraNode) where
  mapSwappable m page := pure (listAdd m PraNode.head (PraNode.page page))
  swapOutVictim _ m :=
    let entry := listPrev m PraNode.head
    if entry ≠ PraNode.head then pure (le2page entry, listDel m entry) else pure (none, m)

/-! ## The lists of the managers -/

/-- The links of pages. -/
def links (ps : List Nat) : List PraNode := ps.map PraNode.page

theorem links_append (ps : List Nat) (p : Nat) : links (ps ++ [p]) = links ps ++ [PraNode.page p] := List.map_append

theorem page_notMem {ps : List Nat} {p : Nat} (hp : p ∉ ps) : PraNode.page p ∉ PraNode.head :: links ps := by
  intro hin
  rcases List.mem_cons.1 hin with heq | hin
  · cases heq
  · obtain ⟨q, hq, heq⟩ := List.mem_map.1 hin
    exact hp (PraNode.page.inj heq ▸ hq)

/-- The list has the pages, and the next scan begins at one of them. -/
def ClockRep (s : SwapClock PraNode) (ps : List Nat) : Prop :=
  Ring s.links PraNode.head (links ps) ∧ ∃ o, ScanFrom s.links PraNode.head (links ps) s.currPtr o

/-- The newest page comes first. -/
def FifoRep (m : Links PraNode) (ps : List Nat) : Prop := Ring m PraNode.head (links ps)

variable {s : SwapClock PraNode} {m : Links PraNode} {ps : List Nat} {p : Nat}

/-- A scan that begins somewhere in the list is one of the algorithm. -/
theorem ClockRep.refines (h : ClockRep s ps) : ∃ c, s.Refines PraNode.head c ∧ c.pages = links ps := by
  obtain ⟨hring, o, l, r, hsplit, -, hnext⟩ := h
  by_cases hr : r = []
  · have hl : l = links ps := by rw [hsplit, hr, List.append_nil]
    refine ⟨⟨[], l, s.visited, fun _ => rfl⟩, ⟨?_, Or.inr ⟨?_, rfl⟩, rfl⟩, hl⟩
    · change Ring s.links PraNode.head l
      rw [hl]
      exact hring
    · rw [hnext, hr]
      rfl
  · refine ⟨⟨l, r, s.visited, fun heq => absurd heq hr⟩, ⟨?_, Or.inl hnext, rfl⟩, hsplit.symm⟩
    change Ring s.links PraNode.head (l ++ r)
    rw [← hsplit]
    exact hring

/-- A new page goes to the end of the list, wherever the hand is. -/
theorem ClockRep.map (h : ClockRep s ps) (hp : p ∉ ps) :
    ClockRep (clockMapSwappable s PraNode.head (PraNode.page p)) (ps ++ [p]) := by
  obtain ⟨hring, o, l, r, hsplit, -, hnext⟩ := h
  have hnew := page_notMem hp
  have hring' : Ring (listAddBefore s.links PraNode.head (PraNode.page p)) PraNode.head (links (ps ++ [p])) := by
    rw [links_append]
    have hnil : links ps ++ [] = links ps := List.append_nil _
    rw [← hnil] at hring hnew
    exact ring_listAddBefore hring hnew
  have hlinks := listAddBefore_next s.links PraNode.head (PraNode.page p) s.currPtr
  refine ⟨hring', ?_⟩
  -- the link of the new page is the one at the hand, comes after the hand, or neither
  by_cases hself : s.currPtr = PraNode.page p
  · rw [if_pos hself] at hlinks
    exact ⟨_, links (ps ++ [p]), [], (List.append_nil _).symm, rfl, hlinks⟩
  rw [if_neg hself] at hlinks
  by_cases hlast : s.currPtr = s.links.prev PraNode.head
  · rw [if_pos hlast] at hlinks
    exact ⟨_, links ps, [PraNode.page p], links_append ps p, rfl, hlinks⟩
  rw [if_neg hlast] at hlinks
  cases r with
  | nil => exact ⟨_, links (ps ++ [p]), [], (List.append_nil _).symm, rfl, hlinks.trans hnext⟩
  | cons q r =>
      refine ⟨_, l, q :: (r ++ [PraNode.page p]), ?_, rfl, hlinks.trans hnext⟩
      rw [links_append, hsplit, List.append_assoc, List.cons_append]

/-- What is left of a list of links without one of them. -/
theorem links_erase {qs rs : List PraNode} {v : PraNode} (h : links ps = qs ++ v :: rs) :
    ∃ p ls, v = PraNode.page p ∧ qs ++ rs = links ls ∧ ps.Perm (p :: ls) := by
  obtain ⟨l, l', hl, rfl, hrest⟩ := List.map_eq_append_iff.1 h
  obtain ⟨p, r, rfl, hp, rfl⟩ := List.map_eq_cons_iff.1 hrest
  refine ⟨p, l ++ r, hp.symm, List.map_append.symm, ?_⟩
  rw [hl]
  exact List.perm_middle

theorem clockManager_victim (h : ClockRep s ps) (hne : ps ≠ []) : ∃ p t qs,
    Returns (fun bound => clockManager.swapOutVictim bound s) (some p, t) ∧ ClockRep t qs ∧ ps.Perm (p :: qs) := by
  obtain ⟨c, hs, hpages⟩ := h.refines
  have hne' : c.pages ≠ [] := by
    rw [hpages]
    exact fun heq => hne (List.map_eq_nil_iff.1 heq)
  obtain ⟨v, t, hvictim, ht, -, limit, hrun⟩ := clockVictimLoop_spec hs hne'
  obtain ⟨l, r, hsplit, hevict⟩ := SecondChance.Clock.evict_pages hvictim
  obtain ⟨p, qs, rfl, hqs, hperm⟩ := links_erase (hpages.symm.trans hsplit)
  have hpages' := hevict.trans hqs
  refine ⟨p, t, qs, ⟨limit, fun bound hbound => ?_⟩, ⟨hpages' ▸ ht.ring, _, hpages' ▸ ht.scan⟩, hperm⟩
  have hloop : clockVictimLoop PraNode.head bound s = done (some (PraNode.page p), t) := hrun bound hbound
  have htick : assert ((0 : Int) = 0) = done () := assert_of rfl
  unfold clockManager clockSwapOutVictim
  dsimp only
  rw [htick, bind_done, hloop]
  rfl

theorem clockManager_lawful : Lawful clockManager ClockRep where
  map _ _ p h hp := ⟨_, _, rfl, h.map hp, List.perm_append_singleton p _⟩
  victim _ _ h hne := clockManager_victim h hne

theorem fifoManager_lawful : Lawful fifoManager FifoRep where
  map m ps p h hp := by
    refine ⟨_, p :: ps, rfl, ?_, List.Perm.refl _⟩
    have hring : Ring m PraNode.head ([] ++ links ps) := h
    exact ring_listAdd hring (page_notMem hp)
  victim m ps h hne := by
    obtain ⟨qs, p, hps⟩ := (List.eq_nil_or_concat ps).resolve_left hne
    rw [List.concat_eq_append] at hps
    subst hps
    have hlinks : links (qs ++ [p]) = links qs ++ PraNode.page p :: [] := links_append qs p
    have hring : Ring m PraNode.head (links qs ++ PraNode.page p :: []) := hlinks ▸ h
    have hlast : listPrev m PraNode.head = PraNode.page p := by
      change m.prev PraNode.head = PraNode.page p
      rw [hring.prev_head, getLastD_concat]
    have hdel := ring_listDel hring
    rw [List.append_nil] at hdel
    refine ⟨p, listDel m (PraNode.page p), qs, ⟨0, fun bound _ => ?_⟩, hdel, List.perm_append_singleton p qs⟩
    unfold fifoManager
    dsimp only
    rw [hlast]
    rfl

/-! ## The address space -/

/-- Nothing is mapped or recorded, and swapping has been set up for areas that can be written. -/
structure Started {μ : Type} (pmm : PageAllocator) (Init : μ → Prop) (s : Sys μ) : Prop where
  config : s.Config
  priv : Init s.priv
  dirs : ∀ i, s.dirs i = none
  tables : ∀ j, s.tables j = none
  pte : ∀ v, s.pte v = 0
  free : ∀ f ∈ s.free, f ∈ pmm.pool ∧ s.ref f = 0

theorem Started.inv {μ : Type} {pmm : PageAllocator} {Init : μ → Prop} {Rep : μ → List Nat → Prop} {s : Sys μ}
    (h : Started pmm Init s) (hinit : ∀ m, Init m → Rep m []) : Inv pmm Rep s [] := by
  have hframe : ∀ a, s.frameOf a = none := by
    intro a
    cases a with
    | dir i => exact h.dirs i
    | table j => exact h.tables j
  have hnone : ∀ v f, (s.pte v).frame ≠ some f := by
    intro v f hf
    exact Pte.ne_zero_of_frame hf (h.pte v)
  have hvalid : ∀ v, ¬ (s.pte v).Valid := fun v => by
    rw [h.pte v]
    exact not_valid_zero
  exact ⟨h.config, hinit _ h.priv, List.nodup_nil, fun f hf => (List.not_mem_nil hf).elim,
    fun f hf => (List.not_mem_nil hf).elim, fun v f hf => (hnone v f hf).elim, fun v hv => (hvalid v hv).elim,
    fun v hv => (hv (h.pte v)).elim, fun v hv => (hv (h.pte v)).elim, fun v hv => (hv (h.pte v)).elim, h.free,
    fun j hj => (hj (h.tables j)).elim, fun a f ha => (Option.some_ne_none f (ha.symm.trans (hframe a))).elim,
    fun a b f ha => (Option.some_ne_none f (ha.symm.trans (hframe a))).elim⟩

/-- What the processor sees of the swapping: every run is one of a plain memory, and whatever frames are free or can
be made free are found when they are needed. -/
def Transparent {μ : Type} (pmm : PageAllocator) (sm : SwapManager μ) (Init : μ → Prop) : Prop :=
  ∀ s accesses t, Started pmm Init s → Run (Step pmm sm) s accesses t →
    Coherent (fun _ => none) accesses ∧ ∀ va, t.Usable pmm va →
      (∃ x u, Step pmm sm t (Access.read va x) u) ∧ ∀ x, ∃ u, Step pmm sm t (Access.write va x) u

theorem transparent_of_lawful {μ : Type} {pmm : PageAllocator} {sm : SwapManager μ} {Init : μ → Prop}
    {Rep : μ → List Nat → Prop} (hlaw : Lawful sm Rep) (hpick : Picks pmm) (hinit : ∀ m, Init m → Rep m []) :
    Transparent pmm sm Init := by
  intro s accesses t hstart hrun
  obtain ⟨⟨qs, hinv⟩, hcoherent⟩ := run_transparent hlaw hpick (hstart.inv hinit) hrun
  have hview : s.view = fun _ => none := by
    funext va
    unfold Sys.view
    rw [content_zero (hstart.pte _)]
    rfl
  rw [hview] at hcoherent
  refine ⟨hcoherent, fun va hva => ⟨?_, fun x => ?_⟩⟩
  · obtain ⟨r, hreturns, -⟩ := load_spec hlaw hpick hinv hva
    exact ⟨r.1, r.2, Step.load va r.1 r.2 hva hreturns⟩
  · obtain ⟨u, hreturns, -⟩ := store_spec hlaw hpick hinv x hva
    exact ⟨u, Step.store va x u hva hreturns⟩

/-- `_clock_init_mm`, with whatever links and flags the pages had. -/
def ClockInit (s : SwapClock PraNode) : Prop := ∃ m visited, s = clockInitMm m visited PraNode.head

/-- `_fifo_init_mm` -/
def FifoInit (m : Links PraNode) : Prop := ∃ m', m = listInit m' PraNode.head

/-- The allocator that gives the lowest free frame. -/
def firstFree : PageAllocator where
  pool := Finset.range npage
  pick free := if h : free.Nonempty then some (free.min' h) else none
  pool_lt f hf := Finset.mem_range.1 hf
  pick_mem free f hf := by
    split at hf
    · next h => exact Option.some.inj hf ▸ free.min'_mem h
    · cases hf

end SwapMm
end TriOS
