import Mathlib

/-!
# skew_heap.h — the priority queue of the scheduler

The heap that the pointers `left`, `right` and `parent` form is a binary tree here; the functions of
`libs/skew_heap.h` are given over it with their comparison function as a parameter. A merge keeps the
elements, and it keeps the heap order as far as the comparison is a total preorder on the elements.
-/

namespace TriOS

/-- `skew_heap_entry_t *` -/
inductive SkewHeap (α : Type*) where
  | nil
  | node (left : SkewHeap α) (entry : α) (right : SkewHeap α)
  deriving Repr

namespace SkewHeap

variable {α : Type*}

/-- The case of two heaps in `skew_heap_merge`, by recursion on the second one. `mergeRight` merges
into the right child of the first one. -/
def mergeNode (comp : α → α → Int) (left : SkewHeap α) (a : α) (right : SkewHeap α)
    (mergeRight : SkewHeap α → SkewHeap α) : SkewHeap α → SkewHeap α
  | nil => node left a right
  | node left' b right' =>
      if comp a b = -1 then
        node (mergeRight (node left' b right')) a left
      else
        node (mergeNode comp left a right mergeRight right') b left'

/-- `skew_heap_merge` -/
def merge (comp : α → α → Int) : SkewHeap α → SkewHeap α → SkewHeap α
  | nil => fun b => b
  | node left a right => mergeNode comp left a right (merge comp right)

/-- `skew_heap_insert` -/
def insert (comp : α → α → Int) (a : SkewHeap α) (b : α) : SkewHeap α :=
  merge comp a (node nil b nil)

/-- `skew_heap_remove`: the node `b` is replaced by the merge of its children. -/
def remove [DecidableEq α] (comp : α → α → Int) : SkewHeap α → α → SkewHeap α
  | nil, _ => nil
  | node left a right, b =>
      if a = b then merge comp left right
      else node (remove comp left b) a (remove comp right b)

/-- The element at the root. -/
def root : SkewHeap α → Option α
  | nil => none
  | node _ a _ => some a

/-- The elements with their multiplicity. -/
def elements : SkewHeap α → Multiset α
  | nil => 0
  | node left a right => a ::ₘ (elements left + elements right)

/-- No element is above an element of its subtrees. -/
def Ordered (le : α → α → Prop) : SkewHeap α → Prop
  | nil => True
  | node left a right =>
      (∀ x ∈ elements left + elements right, le a x) ∧ Ordered le left ∧ Ordered le right

/-- On `s` the comparison function decides a total preorder. -/
structure Compares (comp : α → α → Int) (le : α → α → Prop) (s : Multiset α) : Prop where
  below : ∀ x ∈ s, ∀ y ∈ s, comp x y = -1 → le x y
  above : ∀ x ∈ s, ∀ y ∈ s, comp x y ≠ -1 → le y x
  trans : ∀ x ∈ s, ∀ y ∈ s, ∀ z ∈ s, le x y → le y z → le x z

variable {comp : α → α → Int} {le : α → α → Prop} {s s' : Multiset α} {t u : SkewHeap α} {a b : α}

theorem Compares.mono (h : Compares comp le s) (hsub : s' ⊆ s) : Compares comp le s' :=
  ⟨fun x hx y hy => h.below x (hsub hx) y (hsub hy), fun x hx y hy => h.above x (hsub hx) y (hsub hy),
    fun x hx y hy z hz => h.trans x (hsub hx) y (hsub hy) z (hsub hz)⟩

@[simp] theorem elements_nil : elements (nil : SkewHeap α) = 0 := rfl

@[simp] theorem elements_node : elements (node t a u) = a ::ₘ (elements t + elements u) := rfl

@[simp] theorem merge_nil_left : merge comp nil t = t := rfl

@[simp] theorem merge_nil_right : merge comp t nil = t := by
  cases t <;> rfl

theorem merge_node {l r l' r' : SkewHeap α} :
    merge comp (node l a r) (node l' b r') =
      if comp a b = -1 then node (merge comp r (node l' b r')) a l
      else node (merge comp (node l a r) r') b l' := rfl

theorem elements_merge : elements (merge comp t u) = elements t + elements u := by
  induction t generalizing u with
  | nil => simp
  | node l a r _ ihr =>
      induction u with
      | nil => simp
      | node l' b r' _ ihr' =>
          rw [merge_node]
          by_cases hc : comp a b = -1
          · rw [if_pos hc]
            simp only [elements_node, ihr, Multiset.cons_add]
            rw [add_right_comm, add_comm (elements l)]
          · rw [if_neg hc]
            simp only [elements_node, ihr', Multiset.add_cons]
            abel_nf

theorem elements_insert : elements (insert comp t a) = a ::ₘ elements t := by
  simp [insert, elements_merge, add_comm (elements t)]

/-- Taking out the root leaves the other elements. -/
theorem elements_remove_root [DecidableEq α] (h : root t = some a) :
    elements t = a ::ₘ elements (remove comp t a) := by
  cases t with
  | nil => cases h
  | node l x r =>
      have hx : x = a := Option.some.inj h
      simp [remove, hx, elements_merge]

theorem root_mem (h : root t = some a) : a ∈ elements t := by
  cases t with
  | nil => cases h
  | node l x r =>
      have hx : x = a := Option.some.inj h
      simp [hx]

theorem root_eq_none : root t = none ↔ elements t = 0 := by
  cases t with
  | nil => simp [root]
  | node l x r => simp [root]

/-! ## Heap order -/

theorem Ordered.root_le (h : Ordered le t) (ha : root t = some a) :
    ∀ x ∈ elements t, x = a ∨ le a x := by
  cases t with
  | nil => cases ha
  | node l y r =>
      have hy : y = a := Option.some.inj ha
      subst hy
      intro x hx
      rcases Multiset.mem_cons.1 hx with rfl | hx
      · exact Or.inl rfl
      · exact Or.inr (h.1 x hx)

theorem Ordered.merge (hc : Compares comp le (elements t + elements u)) (ht : Ordered le t)
    (hu : Ordered le u) : Ordered le (merge comp t u) := by
  induction t generalizing u with
  | nil => exact hu
  | node l a r _ ihr =>
      induction u with
      | nil => exact ht
      | node l' b r' _ ihr' =>
          have ha : a ∈ elements (node l a r) + elements (node l' b r') := by simp
          have hb : b ∈ elements (node l a r) + elements (node l' b r') := by simp
          rw [merge_node]
          by_cases hab : comp a b = -1
          · rw [if_pos hab]
            have hle := hc.below a ha b hb hab
            refine ⟨?_, ihr (hc.mono ?_) ht.2.2 hu, ht.2.1⟩
            · intro x hx
              rw [elements_merge] at hx
              simp only [Multiset.mem_add, elements_node, Multiset.mem_cons] at hx
              rcases hx with (hx | rfl | hx) | hx
              · exact ht.1 x (by simp [hx])
              · exact hle
              · exact hc.trans a ha b hb x (by simp [hx]) hle (hu.1 x (by simp [hx]))
              · exact ht.1 x (by simp [hx])
            · intro x hx
              simp only [Multiset.mem_add, elements_node, Multiset.mem_cons] at hx ⊢
              tauto
          · rw [if_neg hab]
            have hle := hc.above a ha b hb hab
            refine ⟨?_, ihr' (hc.mono ?_) hu.2.2, hu.2.1⟩
            · intro x hx
              rw [elements_merge] at hx
              simp only [Multiset.mem_add, elements_node, Multiset.mem_cons] at hx
              rcases hx with ((rfl | hx) | hx) | hx
              · exact hle
              · exact hc.trans b hb a ha x (by simp [hx]) hle (ht.1 x (by simp [hx]))
              · exact hu.1 x (by simp [hx])
              · exact hu.1 x (by simp [hx])
            · intro x hx
              simp only [Multiset.mem_add, elements_node, Multiset.mem_cons] at hx ⊢
              tauto

theorem Ordered.insert (hc : Compares comp le (a ::ₘ elements t)) (ht : Ordered le t) :
    Ordered le (insert comp t a) := by
  refine ht.merge (hc.mono ?_) ⟨by simp, trivial, trivial⟩
  intro x hx
  simp only [Multiset.mem_add, elements_node, elements_nil, Multiset.mem_cons] at hx ⊢
  simpa [or_comm] using hx

/-- The order only matters on the elements. -/
theorem Ordered.congr {le' : α → α → Prop}
    (h : ∀ x ∈ elements t, ∀ y ∈ elements t, le x y → le' x y) (ht : Ordered le t) :
    Ordered le' t := by
  induction t with
  | nil => exact trivial
  | node l a r ihl ihr =>
      refine ⟨fun x hx => h a (by simp) x (by simpa using Or.inr hx) (ht.1 x hx),
        ihl (fun x hx y hy => h x ?_ y ?_) ht.2.1, ihr (fun x hx y hy => h x ?_ y ?_) ht.2.2⟩
      all_goals simp [hx, hy]

/-- The root is taken out with an order that has changed, if the other elements compare as before. -/
theorem Ordered.remove_root [DecidableEq α] {le' : α → α → Prop}
    (hc : Compares comp le' ((elements t).erase a)) (ht : Ordered le t) (ha : root t = some a)
    (hsame : ∀ x ∈ (elements t).erase a, ∀ y ∈ (elements t).erase a, le x y → le' x y) :
    Ordered le' (remove comp t a) := by
  cases t with
  | nil => exact trivial
  | node l x r =>
      have hx : x = a := Option.some.inj ha
      subst hx
      have hrem : remove comp (node l x r) x = SkewHeap.merge comp l r := by
        simp [remove]
      have hrest : (elements (node l x r)).erase x = elements l + elements r := by
        rw [elements_node, Multiset.erase_cons_head]
      rw [hrest] at hc hsame
      rw [hrem]
      refine Ordered.merge hc (ht.2.1.congr fun y hy z hz => hsame y ?_ z ?_)
        (ht.2.2.congr fun y hy z hz => hsame y ?_ z ?_)
      all_goals simp [hy, hz]

end SkewHeap

end TriOS
