import TriOS.Library.Outcome
import TriOS.Library.CircularList
import TriOS.Library.Transition

/-!
# buddy_system_pmm.c — the buddy allocator of lab2

`struct buddy_page` is laid over `struct Page`, so that the embedding keeps the memory in words of eight
bytes: `order` stands where `ref` does, and `page_link` over `flags` and `property`, sixteen bytes before the
field of that name of `struct Page`.
-/

namespace TriOS
namespace BuddySystem

open Outcome Transition CircularList

/-- `MAX_ORDER` -/
def maxOrder : Nat := 10

/-- `sizeof(struct Page)` -/
def pageSize : Nat := 48

/-- `offsetof(struct Page, page_link)` -/
def pageLink : Nat := 24

/-- `offsetof(struct buddy_page, page_link)`, and of `flags` in `struct Page`. -/
def buddyLink : Nat := 8

/-- `sizeof(free_area_t)` -/
def freeAreaSize : Nat := 24

/-- The memory that the allocator works on: `free_area` from `area` on, and the array of `struct Page` from
`lo` to `hi`. -/
structure Mem where
  area : Nat
  lo : Nat
  hi : Nat
  word : Nat → Nat
  buddyStart : Nat
  buddyPages : Nat

/-- The address of a word of `free_area` or of the array of pages. -/
def Mem.Valid (s : Mem) (a : Nat) : Prop :=
  a % 8 = 0 ∧ (s.area ≤ a ∧ a < s.area + freeAreaSize * (maxOrder + 1) ∨ s.lo ≤ a ∧ a < s.hi)

instance (s : Mem) (a : Nat) : Decidable (s.Valid a) :=
  inferInstanceAs (Decidable (_ ∧ (_ ∧ _ ∨ _ ∧ _)))

/-- A load of a word. Other addresses are not the allocator's. -/
def load (s : Mem) (a : Nat) : Outcome Nat :=
  if s.Valid a then done (s.word a) else wrap

/-- A store of a word. -/
def store (s : Mem) (a v : Nat) : Outcome Mem :=
  if s.Valid a then done { s with word := Function.update s.word a v } else wrap

/-- A load of the low half of a word, an `int`. -/
def loadInt (s : Mem) (a : Nat) : Outcome Nat := do
  let w ← load s a
  pure (w % 2 ^ 32)

/-- A store to the low half of a word. -/
def storeInt (s : Mem) (a v : Nat) : Outcome Mem := do
  let w ← load s a
  store s a (w / 2 ^ 32 * 2 ^ 32 + v % 2 ^ 32)

/-! ## Lists -/

/-- The head of `free_area[k].free_list` -/
def freeList (s : Mem) (k : Nat) : Nat := s.area + freeAreaSize * k

/-- The address of `free_area[k].nr_free` -/
def nrFree (s : Mem) (k : Nat) : Nat := s.area + freeAreaSize * k + 16

/-- `list_init` -/
def listInit (s : Mem) (elm : Nat) : Outcome Mem := do
  let s ← store s (elm + 8) elm
  store s elm elm

/-- `list_add` -/
def listAdd (s : Mem) (list elm : Nat) : Outcome Mem := do
  let next ← load s (list + 8)
  let s ← store s next elm
  let s ← store s (list + 8) elm
  let s ← store s (elm + 8) next
  store s elm list

/-- `list_del` -/
def listDel (s : Mem) (elm : Nat) : Outcome Mem := do
  let prev ← load s elm
  let next ← load s (elm + 8)
  let s ← store s (prev + 8) next
  store s next prev

/-! ## The allocator -/

/-- `page_to_idx`: the difference of two pointers to pages. -/
def pageToIdx (s : Mem) (page : Nat) : Outcome Nat :=
  if s.buddyStart ≤ page ∧ (page - s.buddyStart) % pageSize = 0 then
    done ((page - s.buddyStart) / pageSize)
  else wrap

/-- `idx_to_page` -/
def idxToPage (s : Mem) (idx : Nat) : Nat := s.buddyStart + pageSize * idx

/-- `get_buddy_idx` -/
def getBuddyIdx (idx order : Nat) : Nat := idx ^^^ (1 <<< order)

/-- The loop of `__free_pages`, which ends after `n` more rounds. -/
def mergeLoop : Nat → Mem → Nat → Nat → Outcome (Mem × Nat × Nat)
  | 0, s, idx, order => pure (s, idx, order)
  | n + 1, s, idx, order => do
      let buddyIdx := getBuddyIdx idx order
      let buddy := idxToPage s buddyIdx
      let found ← loadInt s buddy
      if found ≠ order then pure (s, idx, order)
      else do
        let s ← listDel s (buddy + buddyLink)
        mergeLoop n s (idx &&& buddyIdx) (order + 1)

/-- `__free_pages` -/
def freeBlock (s : Mem) (page order : Nat) : Outcome Mem := do
  let idx ← pageToIdx s page
  let (s, idx, order) ← mergeLoop (maxOrder - 1 - order) s idx order
  let buddyPage := idxToPage s idx
  let s ← storeInt s buddyPage order
  listAdd s (freeList s order) (buddyPage + buddyLink)

/-- The inner loop of `__alloc_pages`: `i` goes from `order + n - 1` down to `order`. -/
def splitLoop : Nat → Mem → Nat → Nat → Outcome Mem
  | 0, s, _, _ => pure s
  | n + 1, s, idx, order => do
      let i := order + n
      let idx := idx + 1 <<< i
      let newPage := idxToPage s idx
      let s ← storeInt s newPage i
      let s ← listAdd s (freeList s i) (newPage + buddyLink)
      splitLoop n s idx order

/-- The loop of `__alloc_pages`, which looks at `n` more orders from `o` on. -/
def allocLoop : Nat → Mem → Nat → Nat → Outcome (Option Nat × Mem)
  | 0, s, _, _ => pure (none, s)
  | n + 1, s, o, order => do
      let le ← load s (freeList s o + 8)
      if le ≠ freeList s o then do
        let page := le - pageLink
        let s ← listDel s le
        if o ≠ order then do
          let idx ← pageToIdx s page
          let s ← splitLoop (o - order) s idx order
          pure (some page, s)
        else pure (some page, s)
      else allocLoop n s (o + 1) order

/-- `__alloc_pages` -/
def allocBlock (s : Mem) (order : Nat) : Outcome (Option Nat × Mem) :=
  allocLoop (maxOrder + 1 - order) s order order

/-- One round of `buddy_init`. -/
def initArea (s : Mem) (i : Nat) : Outcome Mem := do
  let s ← listInit s (freeList s i)
  storeInt s (nrFree s i) 0

/-- `buddy_init` -/
def buddyInit (s : Mem) : Outcome Mem :=
  (List.range (maxOrder + 1)).foldlM initArea s

/-- One round of `buddy_init_memmap`: `PageReserved`, `flags` and `set_page_ref`. -/
def initPage (s : Mem) (p : Nat) : Outcome Mem := do
  let flags ← load s (p + 8)
  assert (flags % 2 = 1)
  let s ← store s (p + 8) 0
  storeInt s p 0

/-- `buddy_init_memmap` -/
def buddyInitMemmap (s : Mem) (base n : Nat) : Outcome Mem := do
  let s ← (List.range n).foldlM (fun s i => initPage s (base + pageSize * i))
    { s with buddyStart := base, buddyPages := n }
  freeBlock s base maxOrder

/-- The loop that finds the order of a number of pages. -/
def orderLoop (n : Nat) : Nat → Nat → Nat
  | 0, order => order
  | bound + 1, order => if 1 <<< order < n then orderLoop n bound (order + 1) else order

/-- The order of `n` pages, at most `MAX_ORDER`. -/
def orderOf (n : Nat) : Nat := orderLoop n maxOrder 0

/-- `buddy_alloc_pages` -/
def buddyAllocPages (s : Mem) (n : Nat) : Outcome (Option Nat × Mem) := do
  assert (0 < n ∧ n ≤ 1 <<< maxOrder)
  let order := orderOf n
  match ← allocBlock s order with
  | (none, s) => pure (none, s)
  | (some page, s) => do
      let s ← storeInt s page order
      let free ← loadInt s (nrFree s order)
      let s ← storeInt s (nrFree s order) (free + 2 ^ 32 - 1)
      pure (some page, s)

/-- `buddy_free_pages` -/
def buddyFreePages (s : Mem) (base n : Nat) : Outcome Mem := do
  assert (0 < n ∧ n ≤ 1 <<< maxOrder)
  freeBlock s base (orderOf n)

/-- `buddy_nr_free_pages` -/
def buddyNrFreePages (s : Mem) : Nat :=
  (List.range (maxOrder + 1)).foldl
    (fun ret i => (ret + s.word (nrFree s i) % 2 ^ 32 * 2 ^ i % 2 ^ 32) % 2 ^ 64) 0

/-! ## What the allocator should keep -/

/-- The list entries of the memory. -/
def Mem.links (s : Mem) : Links Nat where
  next := fun a => s.word (a + 8)
  prev := fun a => s.word a

/-- A block: the index of its first page and its order. -/
structure Block where
  idx : Nat
  order : Nat
  deriving DecidableEq

/-- The pages of a block, by their indices. -/
def Block.pages (b : Block) : Finset Nat := Finset.Ico b.idx (b.idx + 2 ^ b.order)

/-- The blocks of the free lists, by the entries of the lists. -/
def Mem.FreeBlocks (s : Mem) (free : List Block) : Prop :=
  ∃ lists : Nat → List Block, (∀ k ≤ maxOrder,
      Ring s.links (freeList s k) ((lists k).map fun b => idxToPage s b.idx + buddyLink) ∧
      ∀ b ∈ lists k, b.order = k) ∧
    free = (List.range (maxOrder + 1)).flatMap lists

/-- What should hold in every state, for the `n` pages from `base` on: `free` are the blocks of the free
lists, and `live` those that have been handed out. -/
structure BuddyOk (base n : Nat) (s : Mem) (free live : List Block) : Prop where
  start : s.buddyStart = base
  lists : s.FreeBlocks free
  disjoint : (free ++ live).Pairwise fun b c => Disjoint b.pages c.pages
  inside : ∀ b ∈ free ++ live, b.idx + 2 ^ b.order ≤ n
  aligned : ∀ b ∈ free, b.idx % 2 ^ b.order = 0
  total : ((free ++ live).map fun b => 2 ^ b.order).sum = n
  count : buddyNrFreePages s = (free.map fun b => 2 ^ b.order).sum

/-- An allocation of `n` pages, and the release of `n` pages that have been handed out at `page`. -/
inductive BuddyOp where
  | alloc (n : Nat)
  | free (page n : Nat)

/-- A step of the allocator and its callers, who keep what they have been given. -/
inductive BuddyStep : Mem × List (Nat × Nat) → BuddyOp → Mem × List (Nat × Nat) → Prop where
  | alloc {s t : Mem} {live : List (Nat × Nat)} {n : Nat} {page : Option Nat} :
      buddyAllocPages s n = done (page, t) →
      BuddyStep (s, live) (BuddyOp.alloc n) (t, page.toList.map (fun page => (page, n)) ++ live)
  | free {s t : Mem} {live : List (Nat × Nat)} {page n : Nat} : (page, n) ∈ live →
      buddyFreePages s page n = done t → BuddyStep (s, live) (BuddyOp.free page n) (t, live.erase (page, n))

/-- The claim for the state `s` after initialisation, over every run. In a release a new free block is made
of the block that is released and of blocks that were free. -/
def Buddies (base n : Nat) (s : Mem) : Prop :=
  ∀ ops t held, Run BuddyStep (s, []) ops (t, held) → ∃ free live, BuddyOk base n t free live ∧
    held.map (fun x => (x.1, orderOf x.2)) = live.map (fun b => (base + pageSize * b.idx, b.order)) ∧
    ∀ page m u held', BuddyStep (t, held) (BuddyOp.free page m) (u, held') → ∃ free', u.FreeBlocks free' ∧
      ∀ c ∈ free', c ∉ free → ∃ parts : List Block,
        (∀ b ∈ parts, b ∈ free ∨ page = base + pageSize * b.idx ∧ b.order = orderOf m) ∧
        c.pages = parts.foldr (fun b pages => b.pages ∪ pages) ∅

/-! ## Initialisation -/

/-- `free_area` is none of the pages that are initialised. -/
def Apart (s : Mem) (base n : Nat) : Prop :=
  ∀ a, s.area ≤ a → a < s.area + freeAreaSize * (maxOrder + 1) →
    ¬ (base ≤ a ∧ a < base + pageSize * max n 1)

variable {s t u : Mem} {a v k n base elm list page i : Nat}

/-- A word of the memory is changed. -/
def Mem.set (s : Mem) (a v : Nat) : Mem := { s with word := Function.update s.word a v }

theorem Mem.set_word (b : Nat) : (s.set a v).word b = if b = a then v else s.word b :=
  Function.update_apply _ _ _ _

theorem store_done : store s a v = done t ↔ s.Valid a ∧ t = s.set a v := by
  unfold store
  by_cases h : s.Valid a
  · rw [if_pos h]
    simp [h, Mem.set, eq_comm]
  · rw [if_neg h]
    simp [h]

theorem load_done : load s a = done v ↔ s.Valid a ∧ v = s.word a := by
  unfold load
  by_cases h : s.Valid a
  · rw [if_pos h]
    simp [h, eq_comm]
  · rw [if_neg h]
    simp [h]

/-- The memory `t` is `s` with other words at the addresses `A`. -/
structure Writes (A : Nat → Prop) (s t : Mem) : Prop where
  area : t.area = s.area
  buddyStart : t.buddyStart = s.buddyStart
  word : ∀ a, ¬ A a → t.word a = s.word a

variable {A B : Nat → Prop}

theorem Writes.set : Writes (fun b => b = a) s (s.set a v) :=
  ⟨rfl, rfl, fun b hb => by rw [Mem.set_word, if_neg hb]⟩

theorem Writes.trans (h : Writes A s t) (h' : Writes A t u) : Writes A s u :=
  ⟨h'.area.trans h.area, h'.buddyStart.trans h.buddyStart, fun a ha => (h'.word a ha).trans (h.word a ha)⟩

theorem Writes.mono (h : Writes A s t) (hAB : ∀ a, A a → B a) : Writes B s t :=
  ⟨h.area, h.buddyStart, fun a ha => h.word a fun hc => ha (hAB a hc)⟩

theorem storeInt_done (h : storeInt s a v = done t) :
    t = s.set a (s.word a / 2 ^ 32 * 2 ^ 32 + v % 2 ^ 32) := by
  unfold storeInt at h
  obtain ⟨w, hw, hs⟩ := bind_eq_done.1 h
  obtain ⟨-, rfl⟩ := load_done.1 hw
  exact (store_done.1 hs).2

theorem listInit_done (h : listInit s elm = done t) : t = (s.set (elm + 8) elm).set elm elm := by
  unfold listInit at h
  obtain ⟨m, hm, hs⟩ := bind_eq_done.1 h
  obtain ⟨-, rfl⟩ := store_done.1 hm
  exact (store_done.1 hs).2

/-- `list_add` to an empty list. -/
theorem listAdd_done (h : listAdd s list elm = done t) (hempty : s.word (list + 8) = list) :
    t = (((s.set list elm).set (list + 8) elm).set (elm + 8) list).set elm list := by
  unfold listAdd at h
  obtain ⟨next, hnext, h⟩ := bind_eq_done.1 h
  obtain ⟨s₁, h₁, h⟩ := bind_eq_done.1 h
  obtain ⟨s₂, h₂, h⟩ := bind_eq_done.1 h
  obtain ⟨s₃, h₃, h⟩ := bind_eq_done.1 h
  obtain ⟨-, rfl⟩ := load_done.1 hnext
  obtain ⟨-, rfl⟩ := store_done.1 h₁
  obtain ⟨-, rfl⟩ := store_done.1 h₂
  obtain ⟨-, rfl⟩ := store_done.1 h₃
  rw [(store_done.1 h).2, hempty]

/-- A free list is empty and its counter is 0. -/
structure Empty (s : Mem) (k : Nat) : Prop where
  next : s.word (freeList s k + 8) = freeList s k
  count : s.word (nrFree s k) % 2 ^ 32 = 0

theorem initArea_done (h : initArea s k = done t) :
    Empty t k ∧ Writes (fun a => s.area + freeAreaSize * k ≤ a ∧ a < s.area + freeAreaSize * (k + 1)) s t := by
  unfold initArea at h
  obtain ⟨m, hm, hs⟩ := bind_eq_done.1 h
  have hlist := listInit_done hm
  have hfields : m.area = s.area ∧ m.buddyStart = s.buddyStart := by
    rw [hlist]
    exact ⟨rfl, rfl⟩
  have hstore := storeInt_done hs
  refine ⟨⟨?_, ?_⟩, ?_⟩
  · have haddr : freeList t k = freeList s k := by
      rw [hstore]
      unfold freeList
      change m.area + _ = _
      rw [hfields.1]
    rw [haddr, hstore, Mem.set_word, if_neg, hlist, Mem.set_word, if_neg (by omega), Mem.set_word, if_pos rfl]
    unfold nrFree freeList
    rw [hfields.1]
    omega
  · have haddr : nrFree t k = nrFree m k := by rw [hstore]; rfl
    rw [haddr, hstore, Mem.set_word, if_pos rfl]
    omega
  · refine ⟨?_, ?_, fun a ha => ?_⟩
    · rw [hstore]
      exact hfields.1
    · rw [hstore]
      exact hfields.2
    · unfold freeAreaSize at ha
      rw [hstore, Mem.set_word, if_neg, hlist, Mem.set_word, if_neg, Mem.set_word, if_neg]
      · unfold freeList freeAreaSize
        omega
      · unfold freeList freeAreaSize
        omega
      · unfold nrFree freeAreaSize
        rw [hfields.1]
        omega

/-- A later round of `buddy_init` leaves the earlier lists as they are. -/
theorem Empty.frame {A : Nat → Prop} (h : Empty s k) (hw : Writes A s t)
    (hnext : ¬ A (freeList s k + 8)) (hcount : ¬ A (nrFree s k)) : Empty t k := by
  have hlist : freeList t k = freeList s k := by
    unfold freeList
    rw [hw.area]
  have hnr : nrFree t k = nrFree s k := by
    unfold nrFree
    rw [hw.area]
  constructor
  · rw [hlist, hw.word _ hnext, h.next]
  · rw [hnr, hw.word _ hcount, h.count]

theorem foldlM_snoc {σ α : Type} {f : σ → α → Outcome σ} {xs : List α} {x : α} {s t : σ} :
    (xs ++ [x]).foldlM f s = done t ↔ ∃ m, xs.foldlM f s = done m ∧ f m x = done t := by
  induction xs generalizing s with
  | nil =>
      simp only [List.nil_append, List.foldlM_cons, List.foldlM_nil, bind_eq_done, pure_eq_done]
      constructor
      · rintro ⟨m, hm, ht⟩
        cases ht
        exact ⟨s, rfl, hm⟩
      · rintro ⟨m, hm, ht⟩
        cases hm
        exact ⟨t, ht, rfl⟩
  | cons y ys ih =>
      simp only [List.cons_append, List.foldlM_cons, bind_eq_done, ih]
      constructor
      · rintro ⟨a, ha, m, hm, ht⟩
        exact ⟨m, ⟨a, ha, hm⟩, ht⟩
      · rintro ⟨m, ⟨a, ha, hm⟩, ht⟩
        exact ⟨a, ha, m, hm, ht⟩

/-- `buddy_init` leaves all free lists empty. -/
theorem buddyInit_done (h : buddyInit s = done t) :
    t.area = s.area ∧ ∀ k ≤ maxOrder, Empty t k := by
  have hloop : ∀ n t, (List.range n).foldlM initArea s = done t →
      t.area = s.area ∧ ∀ k < n, Empty t k := by
    intro n
    induction n with
    | zero =>
        intro t ht
        cases ht
        exact ⟨rfl, fun k hk => absurd hk (Nat.not_lt_zero k)⟩
    | succ n ih =>
        intro t ht
        rw [List.range_succ] at ht
        obtain ⟨m, hm, hu⟩ := foldlM_snoc.1 ht
        obtain ⟨harea, hempty⟩ := ih m hm
        obtain ⟨hnew, hwrites⟩ := initArea_done hu
        refine ⟨hwrites.area.trans harea, fun k hk => ?_⟩
        rcases Nat.lt_succ_iff_lt_or_eq.1 hk with hk | rfl
        · apply (hempty k hk).frame hwrites
          · unfold freeList freeAreaSize
            omega
          · unfold nrFree freeAreaSize
            omega
        · exact hnew
  obtain ⟨harea, hempty⟩ := hloop (maxOrder + 1) t h
  exact ⟨harea, fun k hk => hempty k (Nat.lt_succ_of_le hk)⟩

theorem initPage_done (h : initPage s page = done t) :
    Writes (fun a => page ≤ a ∧ a < page + 16) s t := by
  unfold initPage at h
  obtain ⟨flags, -, h⟩ := bind_eq_done.1 h
  obtain ⟨-, -, h⟩ := bind_eq_done.1 h
  obtain ⟨m, hm, h⟩ := bind_eq_done.1 h
  obtain ⟨-, rfl⟩ := store_done.1 hm
  rw [storeInt_done h]
  exact (Writes.set.mono fun a ha => by omega).trans (Writes.set.mono fun a ha => by omega)

/-- The loop over the pages writes to the pages only. -/
theorem initPages_done (h : (List.range n).foldlM (fun s i => initPage s (base + pageSize * i)) s = done t) :
    Writes (fun a => base ≤ a ∧ a < base + pageSize * n) s t := by
  induction n generalizing t with
  | zero =>
      cases h
      exact ⟨rfl, rfl, fun _ _ => rfl⟩
  | succ n ih =>
      rw [List.range_succ] at h
      obtain ⟨m, hm, ht⟩ := foldlM_snoc.1 h
      apply Writes.trans
      · exact (ih hm).mono fun a ha => ⟨ha.1, by unfold pageSize at *; omega⟩
      · exact (initPage_done ht).mono fun a ha => by unfold pageSize at *; omega

/-- The block of the highest order is put into its list as it is. -/
theorem freeBlock_maxOrder (h : freeBlock s s.buddyStart maxOrder = done t) (hempty : Empty s maxOrder)
    (hapart : Apart s s.buddyStart n) :
    Writes (fun a => s.buddyStart ≤ a ∧ a < s.buddyStart + pageSize ∨
        a = freeList s maxOrder ∨ a = freeList s maxOrder + 8) s t ∧
      t.word (freeList s maxOrder + 8) = s.buddyStart + buddyLink := by
  have hidx : pageToIdx s s.buddyStart = done 0 := by simp [pageToIdx]
  have hpage : idxToPage s 0 = s.buddyStart := by simp [idxToPage]
  have houtside := hapart (freeList s maxOrder + 8) (by unfold freeList freeAreaSize maxOrder; omega)
    (by unfold freeList freeAreaSize maxOrder; omega)
  unfold freeBlock at h
  rw [hidx, bind_done] at h
  change (storeInt s (idxToPage s 0) maxOrder >>= fun s' =>
    listAdd s' (freeList s' maxOrder) (idxToPage s 0 + buddyLink)) = done t at h
  rw [hpage] at h
  obtain ⟨m, hm, h⟩ := bind_eq_done.1 h
  have hstore : Writes (fun a => a = s.buddyStart) s m := storeInt_done hm ▸ Writes.set
  have hlist : freeList m maxOrder = freeList s maxOrder := by
    unfold freeList
    rw [hstore.area]
  have hinside : ∀ d, d < 48 → freeList s maxOrder + 8 ≠ s.buddyStart + d := by
    intro d hd heq
    apply houtside
    rw [heq]
    unfold pageSize
    omega
  rw [hlist] at h
  have hadd := listAdd_done h (by rw [hstore.word _ (hinside 0 (by omega)), hempty.next])
  constructor
  · rw [hadd]
    have hentry : ∀ d, d < 48 → ∀ a, a = s.buddyStart + d →
        s.buddyStart ≤ a ∧ a < s.buddyStart + pageSize := by
      intro d hd a ha
      unfold pageSize
      omega
    apply (hstore.mono fun a ha => Or.inl (hentry 0 (by omega) a ha)).trans
    apply (Writes.set.mono fun a ha => Or.inr (Or.inl ha)).trans
    apply (Writes.set.mono fun a ha => Or.inr (Or.inr ha)).trans
    apply (Writes.set.mono fun a ha => Or.inl (hentry 16 (by omega) a ha)).trans
    exact Writes.set.mono fun a ha => Or.inl (hentry 8 (by omega) a ha)
  · have hlink : freeList s maxOrder + 8 ≠ s.buddyStart + buddyLink := hinside 8 (by omega)
    have hnext : freeList s maxOrder + 8 ≠ s.buddyStart + buddyLink + 8 := hinside 16 (by omega)
    rw [hadd, Mem.set_word, if_neg hlink, Mem.set_word, if_neg hnext, Mem.set_word, if_pos rfl]

/-- After initialisation the counters are 0, and the list of the highest order holds the first page. -/
theorem init_done (hapart : Apart s base n)
    (h : (buddyInit s >>= fun s => buddyInitMemmap s base n) = done t) :
    (∀ k ≤ maxOrder, t.word (nrFree t k) % 2 ^ 32 = 0) ∧
      t.word (freeList t maxOrder + 8) ≠ freeList t maxOrder := by
  obtain ⟨m, hm, h⟩ := bind_eq_done.1 h
  obtain ⟨harea, hempty⟩ := buddyInit_done hm
  unfold buddyInitMemmap at h
  obtain ⟨u, hu, h⟩ := bind_eq_done.1 h
  have hstarted : ∀ k ≤ maxOrder, Empty { m with buddyStart := base, buddyPages := n } k :=
    fun k hk => ⟨(hempty k hk).next, (hempty k hk).count⟩
  have hpages := initPages_done hu
  have hstart : u.buddyStart = base := hpages.buddyStart
  have huarea : u.area = s.area := hpages.area.trans harea
  have hmarea : m.area = u.area := hpages.area.symm
  have hsize : pageSize * n ≤ pageSize * max n 1 := Nat.mul_le_mul_left _ (Nat.le_max_left n 1)
  have hone : pageSize ≤ pageSize * max n 1 := Nat.le_mul_of_pos_right _ (Nat.le_max_right n 1)
  have houtside : ∀ a, u.area ≤ a → a < u.area + freeAreaSize * (maxOrder + 1) →
      ¬ (base ≤ a ∧ a < base + pageSize * max n 1) := huarea ▸ hapart
  have hkept : ∀ k ≤ maxOrder, Empty u k := by
    intro k hk
    apply (hstarted k hk).frame hpages
    · have hout := houtside (m.area + freeAreaSize * k + 8) (by omega)
        (by unfold freeAreaSize maxOrder at *; omega)
      exact fun hin => hout ⟨hin.1, lt_of_lt_of_le hin.2 (by omega)⟩
    · have hout := houtside (m.area + freeAreaSize * k + 16) (by omega)
        (by unfold freeAreaSize maxOrder at *; omega)
      exact fun hin => hout ⟨hin.1, lt_of_lt_of_le hin.2 (by omega)⟩
  rw [← hstart] at h
  obtain ⟨hwrites, hhead⟩ := freeBlock_maxOrder (n := n) h (hkept maxOrder le_rfl) (by
    rw [hstart]
    exact houtside)
  have hlist : freeList t maxOrder = freeList u maxOrder := by
    unfold freeList
    rw [hwrites.area]
  constructor
  · intro k hk
    have hnr : nrFree t k = nrFree u k := by
      unfold nrFree
      rw [hwrites.area]
    have hout := houtside (nrFree u k) (by unfold nrFree; omega)
      (by unfold nrFree freeAreaSize maxOrder at *; omega)
    rw [hnr, hwrites.word _ ?_, (hkept k hk).count]
    rintro (hin | hin | hin)
    · omega
    · unfold nrFree freeList freeAreaSize maxOrder at hin
      omega
    · unfold nrFree freeList freeAreaSize maxOrder at hin
      omega
  · rw [hlist, hhead, hstart]
    have hout := houtside (freeList u maxOrder) (by unfold freeList; omega)
      (by unfold freeList freeAreaSize maxOrder; omega)
    intro heq
    apply hout
    rw [← heq]
    unfold buddyLink
    unfold pageSize at hone ⊢
    omega

/-! ## What it does keep -/

/-- Counters that are 0 and a list that is not empty do not fit. -/
theorem not_buddyOk (hcount : ∀ k ≤ maxOrder, s.word (nrFree s k) % 2 ^ 32 = 0)
    (hhead : s.word (freeList s maxOrder + 8) ≠ freeList s maxOrder) {free live : List Block} :
    ¬ BuddyOk base n s free live := by
  intro hok
  have hfold : ∀ ks : List Nat, (∀ k ∈ ks, k ≤ maxOrder) → ks.foldl
      (fun ret i => (ret + s.word (nrFree s i) % 2 ^ 32 * 2 ^ i % 2 ^ 32) % 2 ^ 64) 0 = 0 := by
    intro ks
    induction ks with
    | nil => exact fun _ => rfl
    | cons k ks ih =>
        intro hks
        rw [List.foldl_cons, hcount k (hks k List.mem_cons_self)]
        simpa using ih fun i hi => hks i (List.mem_cons_of_mem k hi)
  have hzero : buddyNrFreePages s = 0 :=
    hfold _ fun k hk => Nat.lt_succ_iff.1 (List.mem_range.1 hk)
  have hsum := hok.count
  obtain ⟨lists, hlists, rfl⟩ := hok.lists
  obtain ⟨hring, -⟩ := hlists maxOrder le_rfl
  cases hlast : lists maxOrder with
  | nil =>
      rw [hlast] at hring
      exact hhead hring.segment.1
  | cons b bs =>
      have hmem : b ∈ (List.range (maxOrder + 1)).flatMap lists :=
        List.mem_flatMap.2 ⟨maxOrder, List.self_mem_range_succ, by simp [hlast]⟩
      have hle : 2 ^ b.order ≤ (((List.range (maxOrder + 1)).flatMap lists).map fun b => 2 ^ b.order).sum :=
        List.single_le_sum (fun _ _ => Nat.zero_le _) _ (List.mem_map.2 ⟨b, hmem, rfl⟩)
      have hpos : 0 < 2 ^ b.order := Nat.two_pow_pos b.order
      omega

/-- The allocator does not keep what it should, whatever the pages it is given: after initialisation no
counter has been raised, and a list holds a block. -/
theorem not_buddies (s : Mem) (base n : Nat) (t : Mem) (hapart : Apart s base n)
    (h : (buddyInit s >>= fun s => buddyInitMemmap s base n) = done t) : ¬ Buddies base n t := by
  intro hbuddies
  obtain ⟨hcount, hhead⟩ := init_done hapart h
  obtain ⟨free, live, hok, -⟩ := hbuddies [] t [] Run.nil
  exact not_buddyOk hcount hhead hok

set_option maxRecDepth 20000

/-- Eight reserved pages behind `free_area`. -/
def eightPages : Mem where
  area := 0
  lo := 264
  hi := 648
  word := fun _ => 1
  buddyStart := 0
  buddyPages := 0

theorem not_buddies_eightPages : ∃ t, Apart eightPages 264 8 ∧
    (buddyInit eightPages >>= fun s => buddyInitMemmap s 264 8) = done t ∧ ¬ Buddies 264 8 t :=
  have hapart : Apart eightPages 264 8 := fun a _ ha hin => by
    change a < 0 + 24 * 11 at ha
    omega
  ⟨_, hapart, rfl, not_buddies eightPages 264 8 _ hapart rfl⟩

/-- Eight pages after initialisation: no page is counted as free, and no page can be allocated. -/
theorem buddies_fails : ∃ t, (buddyInit eightPages >>= fun s => buddyInitMemmap s 264 8) = done t ∧
    buddyNrFreePages t = 0 ∧ buddyAllocPages t 1 = wrap ∧ ¬ Buddies 264 8 t := by
  refine ⟨_, rfl, rfl, rfl, fun hbuddies => ?_⟩
  obtain ⟨free, live, hok, -⟩ := hbuddies [] _ [] Run.nil
  exact not_buddyOk (by decide) (by decide) hok

end BuddySystem
end TriOS
