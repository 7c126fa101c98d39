import TriOS.Libs.List
import TriOS.Library.Transition
import TriOS.Mm.Pte

/-!
# slub_pmm.c — a cache of objects

A cache hands out the objects of its pages one behind the other. The header of a page is where the
field `data` of the page points to; it has a pointer to the next object, and the number of the objects
that are left. A page is asked for when no page has objects left, and what `buddy_alloc_pages` answers
is given with the call.
-/

namespace TriOS
namespace Slub

open CircularList Transition Outcome

/-- `PHYSICAL_MEMORY_OFFSET` -/
def physicalMemoryOffset : Nat := 0xFFFFFFFF40000000

/-- `sizeof(struct slab_page)` -/
def sizeofSlabPage : Nat := 40

/-- `struct slab_page`, without its list node. -/
structure SlabPage where
  cache : Nat
  freeObjects : Nat
  freePointer : Nat

/-- `struct kmem_cache` with the list nodes and the headers of all pages, which are kept by their
addresses. -/
structure KmemCache where
  objectSize : Nat
  num : Nat
  links : Links Nat
  slab : Nat → SlabPage

/-- `&cache->partial` of the cache at an address. -/
def partialOf (cache : Nat) : Nat := cache + 16

/-- `&cache->full` of the cache at an address. -/
def fullOf (cache : Nat) : Nat := cache + 32

/-- `&slab->list` of the header at an address. -/
def listOf (slab : Nat) : Nat := slab + 16

/-- `le2slab` -/
def le2slab (le : Nat) : Nat := le - 16

/-- `page2kva`, of the number of the page. -/
def page2kva (page : Nat) : Nat := (page * pgSize + physicalMemoryOffset) % 2 ^ 64

/-- `kva2page` -/
def kva2page (kva : Nat) : Nat := (kva + 2 ^ 64 - physicalMemoryOffset) % 2 ^ 64 / pgSize

/-- `kmem_cache_init`: a division by an object size of zero has no result. -/
def kmemCacheInit (s : KmemCache) (cache size : Nat) : Outcome KmemCache :=
  if size = 0 then wrap
  else pure
    { s with
      objectSize := size
      num := (pgSize - sizeofSlabPage) / size
      links := listInit (listInit s.links (partialOf cache)) (fullOf cache) }

/-- `kmem_cache_grow`; `data` is the field of the pages. -/
def kmemCacheGrow (data : Nat → Nat) (s : KmemCache) (cache : Nat) (newPage : Option Nat) :
    Option Nat × KmemCache :=
  match newPage with
  | none => (none, s)
  | some page =>
      (some (page2kva page),
        { s with
          slab := Function.update s.slab (data page) ⟨cache, s.num % 2 ^ 32, page2kva page⟩
          links := listAdd s.links (partialOf cache) (listOf (data page)) })

/-- `kmem_cache_alloc` -/
def kmemCacheAlloc (data : Nat → Nat) (s : KmemCache) (cache : Nat) (newPage : Option Nat) :
    Option Nat × KmemCache :=
  if listEmpty s.links (partialOf cache) then kmemCacheGrow data s cache newPage
  else
    let le := listNext s.links (partialOf cache)
    let slab := s.slab (le2slab le)
    let left := (slab.freeObjects + 2 ^ 32 - 1) % 2 ^ 32
    let s :=
      { s with
        slab := Function.update s.slab (le2slab le)
          { slab with
            freePointer := (slab.freePointer + s.objectSize) % 2 ^ 64
            freeObjects := left } }
    (some slab.freePointer,
      if left = 0 then { s with links := listAdd (listDel s.links le) (fullOf cache) le } else s)

/-- `kmem_cache_free` -/
def kmemCacheFree (data : Nat → Nat) (s : KmemCache) (cache obj : Nat) : KmemCache :=
  let at_ := data (kva2page obj)
  let slab := s.slab at_
  let links :=
    if slab.freeObjects = 0 then listAdd (listDel s.links (listOf at_)) (partialOf cache) (listOf at_)
    else s.links
  { s with
    links := links
    slab := Function.update s.slab at_
      { slab with
        freePointer := (slab.freePointer + 2 ^ 64 - s.objectSize) % 2 ^ 64
        freeObjects := (slab.freeObjects + 1) % 2 ^ 32 } }

/-! ## Runs -/

/-- The calls, with the page that `buddy_alloc_pages` has for a call that asks for one. -/
inductive SlubOp where
  | alloc (newPage : Option Nat)
  | free (obj : Nat)
  deriving DecidableEq

/-- A cache with the pages that it owns and the objects that are live. -/
structure SlubState where
  cache : KmemCache
  pages : List Nat
  live : List Nat

/-- A call: only live objects are freed. -/
def SlubStep (data : Nat → Nat) (cache : Nat) (st : SlubState) (op : SlubOp) (st' : SlubState) : Prop :=
  match op with
  | SlubOp.alloc newPage =>
      st' =
        { cache := (kmemCacheAlloc data st.cache cache newPage).2
          pages := if listEmpty st.cache.links (partialOf cache) then newPage.toList ++ st.pages else st.pages
          live := (kmemCacheAlloc data st.cache cache newPage).1.toList ++ st.live }
  | SlubOp.free obj =>
      obj ∈ st.live ∧
        st' = { st with cache := kmemCacheFree data st.cache cache obj, live := st.live.erase obj }

/-- The objects of a page. -/
def InPage (page obj : Nat) : Prop := page2kva page ≤ obj ∧ obj < page2kva page + pgSize

instance (page obj : Nat) : Decidable (InPage page obj) := inferInstanceAs (Decidable (_ ∧ _))

/-- What a cache is to keep: the live objects are in pages of the cache, apart from the headers and from
one another, and the count of a page is the number of its objects that are not live. -/
structure SlabsKept (data : Nat → Nat) (st : SlubState) : Prop where
  distinct : st.live.Nodup
  inside : ∀ obj ∈ st.live, ∃ page ∈ st.pages, page2kva page ≤ obj ∧
    obj + st.cache.objectSize ≤ page2kva page + pgSize ∧
    (obj + st.cache.objectSize ≤ data page ∨ data page + sizeofSlabPage ≤ obj)
  apart : st.live.Pairwise fun a b => a + st.cache.objectSize ≤ b ∨ b + st.cache.objectSize ≤ a
  count : ∀ page ∈ st.pages,
    (st.cache.slab (data page)).freeObjects + (st.live.filter fun obj => InPage page obj).length = st.cache.num

variable {data : Nat → Nat} {s s₀ : KmemCache} {cache size page : Nat} {newPage : Option Nat}
  {st st' : SlubState} {ops : List SlubOp} {op : SlubOp}

/-- The cache after `kmem_cache_init`, before any page. -/
structure Fresh (cache : Nat) (st : SlubState) : Prop where
  empty : listEmpty st.cache.links (partialOf cache)
  num : st.cache.num ≤ pgSize
  pages : st.pages = []
  live : st.live = []

theorem fresh_init (h : kmemCacheInit s₀ cache size = done s) : Fresh cache ⟨s, [], []⟩ := by
  unfold kmemCacheInit at h
  split at h
  · cases h
  · cases h
    refine ⟨?_, ?_, rfl, rfl⟩
    · have hring := ring_listInit_of_not_mem (ring_listInit s₀.links (partialOf cache))
        (show fullOf cache ∉ [partialOf cache] by
          unfold fullOf partialOf
          rw [List.mem_singleton]
          omega)
      exact hring.next_head
    · calc (pgSize - sizeofSlabPage) / size ≤ pgSize - sizeofSlabPage := Nat.div_le_self _ _
        _ ≤ pgSize := Nat.sub_le _ _

theorem Fresh.slabsKept (h : Fresh cache st) : SlabsKept data st := by
  obtain ⟨_, _, hpages, hlive⟩ := h
  refine ⟨?_, fun obj hobj => ?_, ?_, fun page hpage => ?_⟩
  · rw [hlive]
    exact List.nodup_nil
  · rw [hlive] at hobj
    cases hobj
  · rw [hlive]
    exact List.Pairwise.nil
  · rw [hpages] at hpage
    cases hpage

/-- Without a page a call fails, and nothing changes. -/
theorem Fresh.refused (h : Fresh cache st) (hstep : SlubStep data cache st op st')
    (hop : ∀ page, op ≠ SlubOp.alloc (some page)) : st' = st := by
  cases op with
  | free obj =>
      have hobj := hstep.1
      rw [h.live] at hobj
      cases hobj
  | alloc newPage =>
      cases newPage with
      | some page => exact absurd rfl (hop page)
      | none =>
          have hrefused : kmemCacheAlloc data st.cache cache none = (none, st.cache) := if_pos h.empty
          calc st' = _ := hstep
            _ = st := by rw [hrefused, if_pos h.empty]; rfl

/-- The first object of a new page is live, and still counted as free. -/
theorem Fresh.grown (h : Fresh cache st) (hstep : SlubStep data cache st (SlubOp.alloc (some page)) st') :
    ¬ SlabsKept data st' := by
  have hgrow : kmemCacheAlloc data st.cache cache (some page) =
      kmemCacheGrow data st.cache cache (some page) := if_pos h.empty
  have hst : st' = _ := hstep
  rw [hgrow, if_pos h.empty, h.pages, h.live] at hst
  subst hst
  intro hkept
  have hcount := hkept.count page (List.mem_singleton.2 rfl)
  have hin : InPage page (page2kva page) := ⟨le_rfl, Nat.lt_add_of_pos_right (by decide)⟩
  have hmod : st.cache.num % 2 ^ 32 = st.cache.num :=
    Nat.mod_eq_of_lt (h.num.trans_lt (by decide))
  have hfilter : [page2kva page].filter (fun obj => decide (InPage page obj)) = [page2kva page] :=
    List.filter_cons_of_pos (decide_eq_true hin)
  simp only [kmemCacheGrow, Option.toList_some, List.append_nil, Function.update_self, hmod, hfilter,
    List.length_singleton] at hcount
  omega

theorem Fresh.run (h : Fresh cache st) (hrun : Run (SlubStep data cache) st ops st')
    (hops : ∀ page, SlubOp.alloc (some page) ∉ ops) : st' = st := by
  induction hrun with
  | nil => rfl
  | snoc hrun hstep ih =>
      have heq := ih fun page hmem => hops page (List.mem_append_left _ hmem)
      subst heq
      refine h.refused hstep fun page hop => hops page ?_
      rw [hop]
      exact List.mem_append_right _ List.mem_cons_self

/-- A cache keeps its objects through a run exactly if it never gets a page. -/
theorem slub_kept_iff (h : kmemCacheInit s₀ cache size = done s)
    (hrun : Run (SlubStep data cache) ⟨s, [], []⟩ ops st) :
    (∀ pre post t, ops = pre ++ post → Run (SlubStep data cache) ⟨s, [], []⟩ pre t → SlabsKept data t) ↔
      ∀ page, SlubOp.alloc (some page) ∉ ops := by
  have hfresh := fresh_init h
  constructor
  · intro hkept page hmem
    -- The first call that gets a page.
    have hfirst : ∃ pre post page', ops = pre ++ SlubOp.alloc (some page') :: post ∧
        ∀ page, SlubOp.alloc (some page) ∉ pre := by
      clear hkept hrun
      induction ops with
      | nil => cases hmem
      | cons op ops ih =>
          by_cases hop : ∃ page', op = SlubOp.alloc (some page')
          · obtain ⟨page', rfl⟩ := hop
            exact ⟨[], ops, page', rfl, fun _ h => by cases h⟩
          · rcases List.mem_cons.1 hmem with rfl | hmem
            · exact absurd ⟨page, rfl⟩ hop
            · obtain ⟨pre, post, page', rfl, hpre⟩ := ih hmem
              refine ⟨op :: pre, post, page', rfl, fun p hp => ?_⟩
              rcases List.mem_cons.1 hp with hp | hp
              · exact hop ⟨p, hp.symm⟩
              · exact hpre p hp
    obtain ⟨pre, post, page', rfl, hpre⟩ := hfirst
    obtain ⟨t, hbefore, hafter⟩ := hrun.of_append
    obtain ⟨u, hstep, _⟩ := hafter.of_cons
    obtain rfl := hfresh.run hbefore hpre
    refine hfresh.grown hstep (hkept (pre ++ [SlubOp.alloc (some page')]) post u ?_ (hbefore.snoc hstep))
    rw [List.append_assoc]
    rfl
  · rintro hops pre post t rfl hpre
    obtain rfl := hfresh.run hpre fun page hmem => hops page (List.mem_append_left _ hmem)
    exact hfresh.slabsKept

/-- The second object that comes from a new page is the first one again. -/
theorem alloc_again (hempty : listEmpty s.links (partialOf cache))
    (hdata : listOf (data page) ≠ partialOf cache) (newPage : Option Nat) :
    (kmemCacheAlloc data (kmemCacheAlloc data s cache (some page)).2 cache newPage).1 =
      (kmemCacheAlloc data s cache (some page)).1 := by
  have hgrow : kmemCacheAlloc data s cache (some page) = kmemCacheGrow data s cache (some page) := if_pos hempty
  have hnext : listNext (kmemCacheGrow data s cache (some page)).2.links (partialOf cache) = listOf (data page) := by
    simp only [kmemCacheGrow, listNext, listAdd, listAddAfter, listAddBetween, Links.setNext_next,
      Links.setPrev_next, if_neg hdata.symm, if_true]
  have hsome : ¬ listEmpty (kmemCacheGrow data s cache (some page)).2.links (partialOf cache) :=
    fun hc => hdata (hnext.symm.trans hc)
  have hle : le2slab (listOf (data page)) = data page := by
    unfold le2slab listOf
    exact Nat.add_sub_cancel _ 16
  have hobj : ((kmemCacheGrow data s cache (some page)).2.slab (data page)).freePointer = page2kva page := by
    simp only [kmemCacheGrow, Function.update_self]
  rw [hgrow, kmemCacheAlloc, if_neg hsome, hnext]
  exact congrArg some (hle ▸ hobj)

/-- A cache before `kmem_cache_init`. -/
def noCache : KmemCache := ⟨0, 0, ⟨id, id⟩, fun _ => ⟨0, 0, 0⟩⟩

/-- A cache of objects of 64 bytes. -/
def cache64 : KmemCache :=
  ⟨64, 63, listInit (listInit ⟨id, id⟩ (partialOf 0x1000)) (fullOf 0x1000), fun _ => ⟨0, 0, 0⟩⟩

/-- The cache when it has got a page. -/
def cache64Grown : SlubState :=
  { cache := (kmemCacheAlloc (fun page => page * pgSize) cache64 0x1000 (some 2)).2
    pages := [2]
    live := [page2kva 2] }

theorem cache64_init : kmemCacheInit noCache 0x1000 64 = done cache64 := rfl

theorem cache64_fresh : Fresh 0x1000 ⟨cache64, [], []⟩ := fresh_init cache64_init

theorem cache64_step :
    SlubStep (fun page => page * pgSize) 0x1000 ⟨cache64, [], []⟩ (SlubOp.alloc (some 2)) cache64Grown := by
  have hgrow : kmemCacheAlloc (fun page => page * pgSize) cache64 0x1000 (some 2) =
      kmemCacheGrow (fun page => page * pgSize) cache64 0x1000 (some 2) := if_pos cache64_fresh.empty
  unfold SlubStep cache64Grown
  dsimp only
  rw [hgrow, if_pos cache64_fresh.empty]
  rfl

theorem slub_kept_iff_cache64 :
    (∀ pre post t, [SlubOp.alloc (some 2)] = pre ++ post →
      Run (SlubStep (fun page => page * pgSize) 0x1000) ⟨cache64, [], []⟩ pre t →
        SlabsKept (fun page => page * pgSize) t) ↔
      ∀ page, SlubOp.alloc (some page) ∉ [SlubOp.alloc (some 2)] :=
  slub_kept_iff cache64_init (Run.snoc Run.nil cache64_step)

/-- The first allocation leaves the count of the page one too large. -/
theorem slub_not_kept :
    ¬ ∀ (data : Nat → Nat) (cache size : Nat) (s₀ s : KmemCache) (ops : List SlubOp) (st : SlubState),
      kmemCacheInit s₀ cache size = done s → Run (SlubStep data cache) ⟨s, [], []⟩ ops st →
        SlabsKept data st := fun h =>
  cache64_fresh.grown cache64_step (h _ _ _ _ _ _ _ cache64_init (Run.snoc Run.nil cache64_step))

end Slub
end TriOS
