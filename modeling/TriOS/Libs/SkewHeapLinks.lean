import Mathlib
import TriOS.Library.Outcome
import TriOS.Library.Transition
import TriOS.Libs.SkewHeap

/-!
# skew_heap.h — the links of the heap

The functions of `libs/skew_heap.h` over the three pointers of each entry. `Linked` says that the
pointers form a given tree; each function then does to that tree what its counterpart on trees does.
-/

namespace TriOS

open Outcome Transition

variable {α : Type}

/-- `struct skew_heap_entry` -/
structure SkewHeapEntry (α : Type) where
  parent : Option α
  left : Option α
  right : Option α
  deriving DecidableEq, Repr

/-- The entries by their addresses. -/
abbrev SkewMem (α : Type) := α → SkewHeapEntry α

section Code

variable [DecidableEq α]

/-- `skew_heap_init` -/
def skewHeapInit (mem : SkewMem α) (a : α) : SkewMem α :=
  Function.update mem a { parent := none, left := none, right := none }

/-- `if (l) l->parent = p` -/
def setParent (mem : SkewMem α) (l p : Option α) : SkewMem α :=
  match l with
  | none => mem
  | some x => Function.update mem x { mem x with parent := p }

/-- `a->left = l; a->right = r; if (l) l->parent = a` -/
def hang (mem : SkewMem α) (a : α) (l r : Option α) : SkewMem α :=
  setParent (Function.update mem a { mem a with left := l, right := r }) l (some a)

/-- `skew_heap_merge` -/
def skewHeapMerge (comp : α → α → Int) :
    Nat → SkewMem α → Option α → Option α → Outcome (Option α × SkewMem α)
  | 0, _, _, _ => Outcome.fuel
  | _ + 1, mem, none, b => pure (b, mem)
  | _ + 1, mem, some a, none => pure (some a, mem)
  | bound + 1, mem, some a, some b =>
      if comp a b = -1 then do
        let r := (mem a).left
        let (l, mem) ← skewHeapMerge comp bound mem (mem a).right (some b)
        pure (some a, hang mem a l r)
      else do
        let r := (mem b).left
        let (l, mem) ← skewHeapMerge comp bound mem (some a) (mem b).right
        pure (some b, hang mem b l r)

/-- `skew_heap_insert` -/
def skewHeapInsert (comp : α → α → Int) (bound : Nat) (mem : SkewMem α) (a : Option α) (b : α) :
    Outcome (Option α × SkewMem α) :=
  skewHeapMerge comp bound (skewHeapInit mem b) a (some b)

/-- `if (p->left == b) p->left = rep; else p->right = rep` -/
def replaceChild (p : SkewHeapEntry α) (b : α) (rep : Option α) : SkewHeapEntry α :=
  if p.left = some b then { p with left := rep } else { p with right := rep }

/-- `skew_heap_remove` -/
def skewHeapRemove (comp : α → α → Int) (bound : Nat) (mem : SkewMem α) (a : Option α) (b : α) :
    Outcome (Option α × SkewMem α) := do
  let p := (mem b).parent
  let (rep, mem) ← skewHeapMerge comp bound mem (mem b).left (mem b).right
  let mem := setParent mem rep p
  match p with
  | some p => pure (a, Function.update mem p (replaceChild (mem p) b rep))
  | none => pure (rep, mem)

end Code

namespace SkewHeap

/-- The entries that `mem` links into the tree, where `p` is the parent of its root. -/
def Linked (mem : SkewMem α) (p : Option α) : SkewHeap α → Prop
  | nil => True
  | node l a r =>
      mem a = { parent := p, left := root l, right := root r } ∧
        Linked mem (some a) l ∧ Linked mem (some a) r

variable {comp : α → α → Int} {mem mem' : SkewMem α} {p q : Option α} {s t u l r : SkewHeap α}
  {a b : α} {bound : Nat}

/-! ## The entries of a tree -/

theorem Linked.congr (h : Linked mem p t) (hsame : ∀ x ∈ elements t, mem' x = mem x) :
    Linked mem' p t := by
  induction t generalizing p with
  | nil => exact trivial
  | node l a r ihl ihr =>
      refine ⟨(hsame a (by simp)).trans h.1, ihl h.2.1 fun x hx => hsame x ?_,
        ihr h.2.2 fun x hx => hsame x ?_⟩
      · simp [hx]
      · simp [hx]

theorem Linked.root_parent (h : Linked mem p t) (hb : root t = some b) : (mem b).parent = p := by
  cases t with
  | nil => cases hb
  | node l a r =>
      cases hb
      rw [h.1]

variable [DecidableEq α]

theorem setParent_of_not_mem {c : Option α} (h : ∀ x ∈ c, x ≠ a) : setParent mem c p a = mem a := by
  cases c with
  | none => rfl
  | some x => exact Function.update_of_ne (h x rfl).symm _ _

/-- The parent of the root is the only link from a tree to the outside. -/
theorem Linked.setParent (h : Linked mem q t) (hnd : (elements t).Nodup) :
    Linked (TriOS.setParent mem (root t) p) p t := by
  cases t with
  | nil => exact trivial
  | node l a r =>
      simp only [elements_node, Multiset.nodup_cons, Multiset.mem_add, not_or] at hnd
      have hne : ∀ x, x ∈ elements l ∨ x ∈ elements r →
          TriOS.setParent mem (root (node l a r)) p x = mem x := by
        intro x hx
        apply setParent_of_not_mem
        intro y hy
        cases hy
        rintro rfl
        exact hx.elim hnd.1.1 hnd.1.2
      refine ⟨?_, h.2.1.congr fun x hx => hne x (Or.inl hx),
        h.2.2.congr fun x hx => hne x (Or.inr hx)⟩
      calc TriOS.setParent mem (root (node l a r)) p a
          = { mem a with parent := p } := Function.update_self _ _ _
        _ = { parent := p, left := root l, right := root r } := by simp only [h.1]

/-- After the recursive call of a merge: `m` is what was made of the right subtree of `a`. It becomes
the left one, and the left subtree becomes the right one. -/
theorem Linked.hang {m : SkewHeap α} (h : Linked mem p (node l a r)) (hm : Linked mem' q m)
    (hframe : ∀ x, x ∉ elements m → mem' x = mem x)
    (hnd : (a ::ₘ (elements m + elements l)).Nodup) :
    Linked (TriOS.hang mem' a (root m) (mem a).left) p (node m a l) ∧
      ∀ x, x ∉ elements (node m a l) → TriOS.hang mem' a (root m) (mem a).left x = mem x := by
  simp only [Multiset.nodup_cons, Multiset.nodup_add, Multiset.mem_add, not_or] at hnd
  obtain ⟨⟨ham, hal⟩, hndm, _, hdisj⟩ := hnd
  let mem1 := Function.update mem' a { mem' a with left := root m, right := (mem a).left }
  have hmem1 : ∀ x, x ≠ a → mem1 x = mem' x := fun x hx => Function.update_of_ne hx _ _
  have hout : ∀ x, x ∉ elements m → TriOS.hang mem' a (root m) (mem a).left x = mem1 x := by
    intro x hx
    apply setParent_of_not_mem
    rintro y hy rfl
    exact hx (root_mem hy)
  refine ⟨⟨?_, ?_, ?_⟩, fun x hx => ?_⟩
  · calc TriOS.hang mem' a (root m) (mem a).left a
        = mem1 a := hout a ham
      _ = { mem' a with left := root m, right := (mem a).left } := Function.update_self _ _ _
      _ = { parent := p, left := root m, right := root l } := by simp only [hframe a ham, h.1]
  · have hm1 : Linked mem1 q m := hm.congr fun x hx => hmem1 x fun hxa => ham (hxa ▸ hx)
    exact hm1.setParent hndm
  · refine h.2.1.congr fun x hx => ?_
    have hxm : x ∉ elements m := fun hxm => Multiset.disjoint_left.1 hdisj hxm hx
    calc TriOS.hang mem' a (root m) (mem a).left x
        = mem1 x := hout x hxm
      _ = mem' x := hmem1 x fun hxa => hal (hxa ▸ hx)
      _ = mem x := hframe x hxm
  · simp only [elements_node, Multiset.mem_cons, Multiset.mem_add, not_or] at hx
    calc TriOS.hang mem' a (root m) (mem a).left x
        = mem1 x := hout x hx.2.1
      _ = mem' x := hmem1 x hx.1
      _ = mem x := hframe x hx.2.1

/-! ## Merge -/

/-- What `skew_heap_merge` does to two linked trees: it writes to no other entry, and its bound
counts their entries. -/
theorem skewHeapMerge_spec (ht : Linked mem p t) (hu : Linked mem q u)
    (hnd : (elements t + elements u).Nodup) :
    ∃ mem', (∀ bound, (elements t + elements u).card < bound →
        skewHeapMerge comp bound mem (root t) (root u) = done (root (merge comp t u), mem')) ∧
      (∃ p', (p' = p ∨ p' = q) ∧ Linked mem' p' (merge comp t u)) ∧
      ∀ x, x ∉ elements (merge comp t u) → mem' x = mem x := by
  induction t generalizing p q u with
  | nil =>
      refine ⟨mem, fun bound hbound => ?_, ⟨q, Or.inr rfl, hu⟩, fun _ _ => rfl⟩
      cases bound with
      | zero => cases hbound
      | succ bound => rfl
  | node l a r _ ihr =>
      induction u generalizing q with
      | nil =>
          refine ⟨mem, fun bound hbound => ?_, ⟨p, Or.inl rfl, ht⟩, fun _ _ => rfl⟩
          cases bound with
          | zero => cases hbound
          | succ bound => rfl
      | node l' b r' _ ihr' =>
          by_cases hab : comp a b = -1
          · -- `b` goes into the right subtree of `a`.
            have hperm : elements (node l a r) + elements (node l' b r') =
                a ::ₘ (elements (merge comp r (node l' b r')) + elements l) := by
              rw [elements_merge, elements_node, Multiset.cons_add, add_comm (elements l),
                add_right_comm]
            rw [hperm] at hnd ⊢
            have hnd1 := (Multiset.nodup_add.1 (Multiset.nodup_cons.1 hnd).2).1
            rw [elements_merge] at hnd1
            obtain ⟨mem1, hrun, ⟨p', _, hm⟩, hframe⟩ := ihr ht.2.2 hu hnd1
            obtain ⟨hlink, hout⟩ := ht.hang hm hframe hnd
            rw [merge_node, if_pos hab]
            refine ⟨_, fun bound hbound => ?_, ⟨p, Or.inl rfl, hlink⟩, hout⟩
            cases bound with
            | zero => cases hbound
            | succ bound =>
                have hright : (mem a).right = root r := by rw [ht.1]
                have hcall := hrun bound (by
                  rw [← @elements_merge _ comp]
                  simp only [Multiset.card_cons, Multiset.card_add] at hbound ⊢
                  omega)
                rw [← hright] at hcall
                have hcall : skewHeapMerge comp bound mem (mem a).right (some b) = _ := hcall
                simp only [root, skewHeapMerge, if_pos hab, hcall, bind_done]
                rfl
          · -- `a` goes into the right subtree of `b`.
            have hperm : elements (node l a r) + elements (node l' b r') =
                b ::ₘ (elements (merge comp (node l a r) r') + elements l') := by
              rw [elements_merge, elements_node (t := l'), Multiset.add_cons, add_comm (elements l'),
                add_assoc]
            rw [hperm] at hnd ⊢
            have hnd1 := (Multiset.nodup_add.1 (Multiset.nodup_cons.1 hnd).2).1
            rw [elements_merge] at hnd1
            obtain ⟨mem1, hrun, ⟨p', _, hm⟩, hframe⟩ := ihr' hu.2.2 hnd1
            obtain ⟨hlink, hout⟩ := hu.hang hm hframe hnd
            rw [merge_node, if_neg hab]
            refine ⟨_, fun bound hbound => ?_, ⟨q, Or.inr rfl, hlink⟩, hout⟩
            cases bound with
            | zero => cases hbound
            | succ bound =>
                have hright : (mem b).right = root r' := by rw [hu.1]
                have hcall := hrun bound (by
                  rw [← @elements_merge _ comp]
                  simp only [Multiset.card_cons, Multiset.card_add] at hbound ⊢
                  omega)
                rw [← hright] at hcall
                have hcall : skewHeapMerge comp bound mem (some a) (mem b).right = _ := hcall
                simp only [root, skewHeapMerge, if_neg hab, hcall, bind_done]
                rfl

/-! ## Removal -/

/-- `s` is the tree below some link of `t`. -/
inductive Subtree (s : SkewHeap α) : SkewHeap α → Prop where
  | refl : Subtree s s
  | left {l r : SkewHeap α} {a : α} : Subtree s l → Subtree s (node l a r)
  | right {l r : SkewHeap α} {a : α} : Subtree s r → Subtree s (node l a r)

omit [DecidableEq α] in
theorem Subtree.le (h : Subtree s t) : elements s ≤ elements t := by
  induction h with
  | refl => exact le_rfl
  | left _ ih => exact ih.trans ((Multiset.le_add_right _ _).trans (Multiset.le_cons_self _ _))
  | right _ ih => exact ih.trans ((Multiset.le_add_left _ _).trans (Multiset.le_cons_self _ _))

omit [DecidableEq α] in
/-- A subtree is linked, and its parent is outside. -/
theorem Subtree.linked (h : Subtree s t) (ht : Linked mem p t) (hnd : (elements t).Nodup)
    (hp : ∀ y ∈ p, y ∉ elements t) : ∃ q, Linked mem q s ∧ ∀ y ∈ q, y ∉ elements s := by
  induction h generalizing p with
  | refl => exact ⟨p, ht, hp⟩
  | left _ ih =>
      simp only [elements_node, Multiset.nodup_cons, Multiset.nodup_add, Multiset.mem_add,
        not_or] at hnd
      refine ih ht.2.1 hnd.2.1 fun y hy => ?_
      cases hy
      exact hnd.1.1
  | right _ ih =>
      simp only [elements_node, Multiset.nodup_cons, Multiset.nodup_add, Multiset.mem_add,
        not_or] at hnd
      refine ih ht.2.2 hnd.2.2.1 fun y hy => ?_
      cases hy
      exact hnd.1.2

omit [DecidableEq α] in
theorem exists_subtree (h : b ∈ elements t) : ∃ l r, Subtree (node l b r) t := by
  induction t with
  | nil => simp at h
  | node l a r ihl ihr =>
      simp only [elements_node, Multiset.mem_cons, Multiset.mem_add] at h
      rcases h with rfl | h | h
      · exact ⟨l, r, Subtree.refl⟩
      · obtain ⟨l', r', hsub⟩ := ihl h
        exact ⟨l', r', hsub.left⟩
      · obtain ⟨l', r', hsub⟩ := ihr h
        exact ⟨l', r', hsub.right⟩

omit [DecidableEq α] in
/-- The parent of the root is outside, and the parent of another entry is an entry of the tree. -/
theorem Linked.parent_cases (h : Linked mem p t) (hb : b ∈ elements t) :
    (root t = some b ∧ (mem b).parent = p) ∨
      (root t ≠ some b ∧ ∃ x ∈ elements t, (mem b).parent = some x) := by
  by_cases hroot : root t = some b
  · exact Or.inl ⟨hroot, h.root_parent hroot⟩
  refine Or.inr ⟨hroot, ?_⟩
  induction t generalizing p with
  | nil => simp at hb
  | node l a r ihl ihr =>
      simp only [elements_node, Multiset.mem_cons, Multiset.mem_add] at hb
      rcases hb with rfl | hb | hb
      · exact absurd rfl hroot
      · by_cases hl : root l = some b
        · exact ⟨a, by simp, h.2.1.root_parent hl⟩
        · obtain ⟨x, hx, hpar⟩ := ihl h.2.1 hb hl
          exact ⟨x, by simp [hx], hpar⟩
      · by_cases hr : root r = some b
        · exact ⟨a, by simp, h.2.2.root_parent hr⟩
        · obtain ⟨x, hx, hpar⟩ := ihr h.2.2 hb hr
          exact ⟨x, by simp [hx], hpar⟩

theorem remove_of_not_mem (h : b ∉ elements t) : remove comp t b = t := by
  induction t with
  | nil => rfl
  | node l a r ihl ihr =>
      simp only [elements_node, Multiset.mem_cons, Multiset.mem_add, not_or] at h
      simp only [remove, if_neg (Ne.symm h.1), ihl h.2.1, ihr h.2.2]

theorem elements_remove (hnd : (elements t).Nodup) (h : b ∈ elements t) :
    b ::ₘ elements (remove comp t b) = elements t := by
  induction t with
  | nil => simp at h
  | node l a r ihl ihr =>
      simp only [elements_node, Multiset.nodup_cons, Multiset.nodup_add, Multiset.mem_add,
        not_or] at hnd
      obtain ⟨⟨hal, har⟩, hndl, hndr, hdisj⟩ := hnd
      by_cases hab : a = b
      · subst hab
        simp [remove, elements_merge]
      simp only [elements_node, Multiset.mem_cons, Multiset.mem_add, Ne.symm hab,
        false_or] at h
      simp only [remove, if_neg hab, elements_node]
      rw [Multiset.cons_swap]
      rcases h with h | h
      · rw [remove_of_not_mem (Multiset.disjoint_left.1 hdisj h), ← Multiset.cons_add, ihl hndl h]
      · rw [remove_of_not_mem (Multiset.disjoint_right.1 hdisj h), ← Multiset.add_cons, ihr hndr h]

/-- The links of a tree in which the subtree of `b` has been replaced by the merge `m` of its
children. Only the parent of `b` has got another child. -/
theorem Subtree.splice {m : SkewHeap α} (h : Subtree (node l b r) t) (ht : Linked mem q t)
    (hnd : (elements t).Nodup) (hm : Linked mem' (mem b).parent m) (hmerge : m = merge comp l r)
    (hout : ∀ x, x ∉ elements (node l b r) → mem' x =
      if (mem b).parent = some x then replaceChild (mem x) b (root m) else mem x) :
    Linked mem' q (remove comp t b) ∧
      root (remove comp t b) = if root t = some b then root m else root t := by
  induction h generalizing q with
  | refl =>
      have hq : (mem b).parent = q := by rw [ht.1]
      have hrem : remove comp (node l b r) b = m := by simp [remove, hmerge]
      have hroot : root (node l b r) = some b := rfl
      rw [hrem, if_pos hroot, ← hq]
      exact ⟨hm, rfl⟩
  | @left l' r' a hsub ih =>
      simp only [elements_node, Multiset.nodup_cons, Multiset.nodup_add, Multiset.mem_add,
        not_or] at hnd
      obtain ⟨⟨hal, har⟩, hndl, _, hdisj⟩ := hnd
      have hbl : b ∈ elements l' := Multiset.mem_of_le hsub.le (by simp)
      have hab : a ≠ b := fun hab => hal (hab ▸ hbl)
      obtain ⟨hlink, hroot⟩ := ih ht.2.1 hndl
      have hrem : remove comp (node l' a r') b = node (remove comp l' b) a r' := by
        simp only [remove, if_neg hab, remove_of_not_mem (Multiset.disjoint_left.1 hdisj hbl)]
      have hnode : ∀ x, x ∉ elements l' → mem' x =
          if (mem b).parent = some x then replaceChild (mem x) b (root m) else mem x :=
        fun x hx => hout x fun hx' => hx (Multiset.mem_of_le hsub.le hx')
      have hfar : ∀ x ∈ elements r', x ∉ elements l' := fun x => Multiset.disjoint_right.1 hdisj
      have hne : root (node l' a r') ≠ some b := fun hx => hab (Option.some.inj hx)
      rw [hrem, if_neg hne]
      refine ⟨⟨?_, hlink, ht.2.2.congr fun x hx => ?_⟩, rfl⟩
      · rw [hnode a hal, hroot]
        rcases ht.2.1.parent_cases hbl with ⟨hlb, hpar⟩ | ⟨hlb, y, hy, hpar⟩
        · have hleft : (mem a).left = some b := by rw [ht.1, hlb]
          rw [if_pos hpar, if_pos hlb, replaceChild, if_pos hleft, ht.1]
        · have hya : y ≠ a := fun hya => hal (hya ▸ hy)
          rw [hpar, if_neg (by simpa using hya), if_neg hlb, ht.1]
      · -- Neither `b` nor its parent is in the right subtree.
        rw [hnode x (hfar x hx), if_neg]
        rcases ht.2.1.parent_cases hbl with ⟨_, hpar⟩ | ⟨_, y, hy, hpar⟩
        · rw [hpar]
          rintro ⟨⟩
          exact har hx
        · rw [hpar]
          rintro ⟨⟩
          exact hfar _ hx hy
  | @right l' r' a hsub ih =>
      simp only [elements_node, Multiset.nodup_cons, Multiset.nodup_add, Multiset.mem_add,
        not_or] at hnd
      obtain ⟨⟨hal, har⟩, _, hndr, hdisj⟩ := hnd
      have hbr : b ∈ elements r' := Multiset.mem_of_le hsub.le (by simp)
      have hab : a ≠ b := fun hab => har (hab ▸ hbr)
      obtain ⟨hlink, hroot⟩ := ih ht.2.2 hndr
      have hbl : b ∉ elements l' := Multiset.disjoint_right.1 hdisj hbr
      have hrem : remove comp (node l' a r') b = node l' a (remove comp r' b) := by
        simp only [remove, if_neg hab, remove_of_not_mem hbl]
      have hnode : ∀ x, x ∉ elements r' → mem' x =
          if (mem b).parent = some x then replaceChild (mem x) b (root m) else mem x :=
        fun x hx => hout x fun hx' => hx (Multiset.mem_of_le hsub.le hx')
      have hfar : ∀ x ∈ elements l', x ∉ elements r' := fun x => Multiset.disjoint_left.1 hdisj
      have hne : root (node l' a r') ≠ some b := fun hx => hab (Option.some.inj hx)
      rw [hrem, if_neg hne]
      refine ⟨⟨?_, ht.2.1.congr fun x hx => ?_, hlink⟩, rfl⟩
      · rw [hnode a har, hroot]
        rcases ht.2.2.parent_cases hbr with ⟨hrb, hpar⟩ | ⟨hrb, y, hy, hpar⟩
        · have hleft : (mem a).left ≠ some b := by
            rw [ht.1]
            exact fun hlb => hbl (root_mem hlb)
          rw [if_pos hpar, if_pos hrb, replaceChild, if_neg hleft, ht.1]
        · have hya : y ≠ a := fun hya => har (hya ▸ hy)
          rw [hpar, if_neg (by simpa using hya), if_neg hrb, ht.1]
      · rw [hnode x (hfar x hx), if_neg]
        rcases ht.2.2.parent_cases hbr with ⟨_, hpar⟩ | ⟨_, y, hy, hpar⟩
        · rw [hpar]
          rintro ⟨⟩
          exact hal hx
        · rw [hpar]
          rintro ⟨⟩
          exact hfar _ hx hy

/-- `skew_heap_remove` of any entry of a linked tree. -/
theorem skewHeapRemove_spec (ht : Linked mem none t) (hnd : (elements t).Nodup)
    (hb : b ∈ elements t) :
    ∃ mem', Returns (fun bound => skewHeapRemove comp bound mem (root t) b)
        (root (remove comp t b), mem') ∧ Linked mem' none (remove comp t b) := by
  obtain ⟨l, r, hsub⟩ := exists_subtree hb
  obtain ⟨q, hq, hqout⟩ := hsub.linked ht hnd (by simp)
  have hpar : (mem b).parent = q := hq.root_parent rfl
  have hndsub := Multiset.nodup_of_le hsub.le hnd
  simp only [elements_node, Multiset.nodup_cons] at hndsub
  obtain ⟨mem1, hrun, ⟨q1, _, hm⟩, hframe⟩ :=
    @skewHeapMerge_spec _ comp mem _ _ _ _ _ hq.2.1 hq.2.2 hndsub.2
  have hmsub : elements (merge comp l r) ≤ elements (node l b r) := by
    rw [elements_merge]
    exact Multiset.le_cons_self _ _
  -- The memory after `rep->parent = p`.
  let mem2 := TriOS.setParent mem1 (root (merge comp l r)) q
  have hm2 : Linked mem2 q (merge comp l r) := by
    refine hm.setParent ?_
    rw [elements_merge]
    exact hndsub.2
  have hmem2 : ∀ x, x ∉ elements (node l b r) → mem2 x = mem x := by
    intro x hx
    have hxm : x ∉ elements (merge comp l r) := fun hxm => hx (Multiset.mem_of_le hmsub hxm)
    calc mem2 x
        = mem1 x := setParent_of_not_mem fun y hy hyx => hxm (hyx ▸ root_mem hy)
      _ = mem x := hframe x hxm
  have hcall : ∀ bound, (elements l + elements r).card + 1 ≤ bound →
      skewHeapRemove comp bound mem (root t) b =
        match q with
        | some p => done (root t, Function.update mem2 p
            (replaceChild (mem2 p) b (root (merge comp l r))))
        | none => done (root (merge comp l r), mem2) := by
    intro bound hbound
    have hleft : (mem b).left = root l := by rw [hq.1]
    have hright : (mem b).right = root r := by rw [hq.1]
    simp only [skewHeapRemove, hleft, hright, hpar, hrun bound hbound, bind_done]
    cases q <;> rfl
  rcases ht.parent_cases hb with ⟨htop, hnone⟩ | ⟨htop, y, _, hy⟩
  · -- `b` is the root, and the merge is the whole tree.
    cases hpar.symm.trans hnone
    have hout : ∀ x, x ∉ elements (node l b r) → mem2 x =
        if (mem b).parent = some x then replaceChild (mem x) b (root (merge comp l r))
        else mem x := by
      intro x hx
      rw [hpar]
      exact hmem2 x hx
    rw [← hpar] at hm2
    obtain ⟨hlink, hroot⟩ := hsub.splice ht hnd hm2 rfl hout
    rw [if_pos htop] at hroot
    exact ⟨mem2, ⟨_, fun bound hbound => (hcall bound hbound).trans (by rw [hroot])⟩, hlink⟩
  · -- The merge hangs below the parent `y` of `b`, and the root stays.
    cases hpar.symm.trans hy
    have hysub : y ∉ elements (node l b r) := hqout y rfl
    let mem3 := Function.update mem2 y (replaceChild (mem2 y) b (root (merge comp l r)))
    have hmem3 : ∀ x, x ≠ y → mem3 x = mem2 x := fun x hx => Function.update_of_ne hx _ _
    have hm3 : Linked mem3 (mem b).parent (merge comp l r) := by
      rw [hpar]
      refine hm2.congr fun x hx => hmem3 x ?_
      rintro rfl
      exact hysub (Multiset.mem_of_le hmsub hx)
    have hout : ∀ x, x ∉ elements (node l b r) → mem3 x =
        if (mem b).parent = some x then replaceChild (mem x) b (root (merge comp l r))
        else mem x := by
      intro x hx
      rw [hpar]
      by_cases hxy : x = y
      · subst hxy
        rw [if_pos rfl, ← hmem2 x hx]
        exact Function.update_self _ _ _
      · have hne : some y ≠ some x := fun h => hxy (Option.some.inj h).symm
        rw [if_neg hne, hmem3 x hxy, hmem2 x hx]
    obtain ⟨hlink, hroot⟩ := hsub.splice ht hnd hm3 rfl hout
    rw [if_neg htop] at hroot
    exact ⟨mem3, ⟨_, fun bound hbound => (hcall bound hbound).trans (by rw [hroot])⟩, hlink⟩

/-- `skew_heap_insert` of an entry that is not in the tree. -/
theorem skewHeapInsert_spec (ht : Linked mem none t) (hnd : (elements t).Nodup)
    (hb : b ∉ elements t) :
    ∃ mem', Returns (fun bound => skewHeapInsert comp bound mem (root t) b)
        (root (insert comp t b), mem') ∧ Linked mem' none (insert comp t b) := by
  have hinit : ∀ x ∈ elements t, skewHeapInit mem b x = mem x := by
    intro x hx
    refine Function.update_of_ne ?_ _ _
    rintro rfl
    exact hb hx
  have hnew : Linked (skewHeapInit mem b) none (node nil b nil) :=
    ⟨Function.update_self _ _ _, trivial, trivial⟩
  have hnd' : (elements t + elements (node nil b nil)).Nodup := by
    simpa [Multiset.nodup_add, hnd] using hb
  obtain ⟨mem', hrun, ⟨p', hp', hlink⟩, _⟩ :=
    @skewHeapMerge_spec _ comp _ _ _ _ _ _ (ht.congr hinit) hnew hnd'
  rw [or_self] at hp'
  subst hp'
  exact ⟨mem', ⟨_, fun bound hbound => hrun bound hbound⟩, hlink⟩

/-! ## Heap order -/

theorem remove_le : elements (remove comp t b) ≤ elements t := by
  induction t with
  | nil => exact le_rfl
  | node l a r ihl ihr =>
      by_cases hab : a = b
      · simp only [remove, if_pos hab, elements_merge]
        exact Multiset.le_cons_self _ _
      · simp only [remove, if_neg hab, elements_node]
        exact Multiset.cons_le_cons a (add_le_add ihl ihr)

/-- Taking out any entry keeps the heap order. -/
theorem Ordered.remove {le : α → α → Prop} (hc : Compares comp le (elements t))
    (ht : Ordered le t) : Ordered le (remove comp t b) := by
  induction t with
  | nil => exact trivial
  | node l a r ihl ihr =>
      have hl : elements l ⊆ elements (node l a r) := fun x hx => by simp [hx]
      have hr : elements r ⊆ elements (node l a r) := fun x hx => by simp [hx]
      by_cases hab : a = b
      · have hrem : SkewHeap.remove comp (node l a r) b = SkewHeap.merge comp l r := by
          simp [SkewHeap.remove, hab]
        rw [hrem]
        exact Ordered.merge (hc.mono (Multiset.subset_cons _ _)) ht.2.1 ht.2.2
      · have hrem : SkewHeap.remove comp (node l a r) b =
            node (SkewHeap.remove comp l b) a (SkewHeap.remove comp r b) := by
          simp [SkewHeap.remove, hab]
        rw [hrem]
        refine ⟨fun x hx => ht.1 x ?_, ihl (hc.mono hl) ht.2.1, ihr (hc.mono hr) ht.2.2⟩
        exact Multiset.mem_of_le (add_le_add remove_le remove_le) hx

end SkewHeap

/-! ## Runs -/

open SkewHeap

/-- A comparison function that answers -1, 0 or 1 and orders its arguments totally. -/
structure OrderCompare (comp : α → α → Int) : Prop where
  answer : ∀ a b, comp a b = -1 ∨ comp a b = 0 ∨ comp a b = 1
  swap : ∀ a b, comp b a = -comp a b
  trans : ∀ a b c, comp a b ≠ 1 → comp b c ≠ 1 → comp a c ≠ 1

/-- The order that a comparison function stands for. -/
def NotAbove (comp : α → α → Int) (a b : α) : Prop :=
  comp a b ≠ 1

theorem OrderCompare.compares {comp : α → α → Int} (h : OrderCompare comp) (s : Multiset α) :
    Compares comp (NotAbove comp) s where
  below a _ b _ hab := by
    unfold NotAbove
    rw [hab]
    decide
  above a _ b _ hab := by
    unfold NotAbove
    rw [h.swap a b]
    intro hba
    exact hab (neg_eq_iff_eq_neg.1 hba)
  trans a _ b _ c _ := h.trans a b c

theorem OrderCompare.refl {comp : α → α → Int} (h : OrderCompare comp) (a : α) : comp a a ≠ 1 := by
  have := h.swap a a
  omega

/-- A heap with the entries that are in it. -/
structure SkewPool (α : Type) where
  mem : SkewMem α
  root : Option α
  members : Finset α

/-- A call on the heap. -/
inductive SkewOp (α : Type) where
  | insert (b : α)
  | remove (b : α)

variable [DecidableEq α] {comp : α → α → Int} {st st' : SkewPool α} {op : SkewOp α}

/-- What a call does. -/
def callSkewHeap (comp : α → α → Int) (bound : Nat) (st : SkewPool α) :
    SkewOp α → Outcome (SkewPool α)
  | SkewOp.insert b => do
      let (root, mem) ← skewHeapInsert comp bound st.mem st.root b
      pure { mem := mem, root := root, members := Insert.insert b st.members }
  | SkewOp.remove b => do
      let (root, mem) ← skewHeapRemove comp bound st.mem st.root b
      pure { mem := mem, root := root, members := st.members.erase b }

/-- An entry is inserted once, and only an entry of the heap is removed. -/
def SkewOp.Allowed (st : SkewPool α) : SkewOp α → Prop
  | SkewOp.insert b => b ∉ st.members
  | SkewOp.remove b => b ∈ st.members

/-- One allowed call that returns. -/
def SkewStep (comp : α → α → Int) (st : SkewPool α) (op : SkewOp α) (st' : SkewPool α) : Prop :=
  op.Allowed st ∧ Returns (fun bound => callSkewHeap comp bound st op) st'

/-- The links of the heap are the tree `t` of its members, which is in heap order. The root of the
tree has no parent. -/
structure HoldsTree (comp : α → α → Int) (st : SkewPool α) (t : SkewHeap α) : Prop where
  linked : Linked st.mem none t
  root : st.root = SkewHeap.root t
  elements : SkewHeap.elements t = st.members.val
  ordered : Ordered (NotAbove comp) t

omit [DecidableEq α] in
theorem HoldsTree.nodup {t : SkewHeap α} (h : HoldsTree comp st t) :
    (SkewHeap.elements t).Nodup := by
  rw [h.elements]
  exact st.members.nodup

/-- Every allowed call returns, and the links are the tree that the call on trees gives. -/
theorem HoldsTree.call {t : SkewHeap α} (hc : OrderCompare comp) (h : HoldsTree comp st t)
    (hop : op.Allowed st) :
    ∃ st' t', Returns (fun bound => callSkewHeap comp bound st op) st' ∧ HoldsTree comp st' t' := by
  cases op with
  | insert b =>
      have hb : b ∉ SkewHeap.elements t := by
        rw [h.elements]
        exact hop
      obtain ⟨mem', ⟨bound, hret⟩, hlink⟩ :=
        @skewHeapInsert_spec _ comp st.mem t b _ h.linked h.nodup hb
      refine ⟨⟨mem', _, Insert.insert b st.members⟩, SkewHeap.insert comp t b,
        ⟨bound, fun k hk => ?_⟩, hlink, rfl, ?_, ?_⟩
      · have hrun := hret k hk
        rw [← h.root] at hrun
        simp only [callSkewHeap, hrun, bind_done]
        rfl
      · rw [elements_insert, h.elements, Finset.insert_val_of_notMem hop]
      · exact h.ordered.insert (hc.compares _)
  | remove b =>
      have hb : b ∈ SkewHeap.elements t := by
        rw [h.elements]
        exact hop
      obtain ⟨mem', ⟨bound, hret⟩, hlink⟩ :=
        @skewHeapRemove_spec _ comp st.mem t b _ h.linked h.nodup hb
      refine ⟨⟨mem', _, st.members.erase b⟩, SkewHeap.remove comp t b,
        ⟨bound, fun k hk => ?_⟩, hlink, rfl, ?_, ?_⟩
      · have hrun := hret k hk
        rw [← h.root] at hrun
        simp only [callSkewHeap, hrun, bind_done]
        rfl
      · have hel := @elements_remove _ comp t b _ h.nodup hb
        rw [h.elements] at hel
        calc SkewHeap.elements (SkewHeap.remove comp t b)
            = (b ::ₘ SkewHeap.elements (SkewHeap.remove comp t b)).erase b :=
              (Multiset.erase_cons_head _ _).symm
          _ = st.members.val.erase b := by rw [hel]
          _ = (st.members.erase b).val := (Finset.erase_val _ _).symm
      · exact h.ordered.remove (hc.compares _)

theorem HoldsTree.step {t : SkewHeap α} (hc : OrderCompare comp) (h : HoldsTree comp st t)
    (hstep : SkewStep comp st op st') : ∃ t', HoldsTree comp st' t' := by
  obtain ⟨hop, hret⟩ := hstep
  obtain ⟨st1, t', hret', h'⟩ := h.call hc hop
  rw [hret.unique hret']
  exact ⟨t', h'⟩

omit [DecidableEq α] in
/-- The root is a least member. -/
theorem HoldsTree.root_least {t : SkewHeap α} (hc : OrderCompare comp) (h : HoldsTree comp st t)
    {a : α} (ha : st.root = some a) : a ∈ st.members ∧ ∀ b ∈ st.members, comp a b ≠ 1 := by
  rw [h.root] at ha
  have hmem : ∀ b, b ∈ SkewHeap.elements t ↔ b ∈ st.members := fun b => by
    rw [h.elements]
    rfl
  refine ⟨(hmem a).1 (root_mem ha), fun b hb => ?_⟩
  rcases h.ordered.root_le ha b ((hmem b).2 hb) with rfl | hle
  · exact hc.refl b
  · exact hle

/-- The heap of the scheduler. After every run of insertions and removals of any member the links
are a tree of the members in heap order, its root is a least member, and the next call returns. -/
theorem skew_heap_links (hc : OrderCompare comp) (mem : SkewMem α) (ops : List (SkewOp α))
    (hrun : Run (SkewStep comp) ⟨mem, none, ∅⟩ ops st) :
    (∃ t, HoldsTree comp st t) ∧ (st.root = none ↔ st.members = ∅) ∧
      (∀ a, st.root = some a → a ∈ st.members ∧ ∀ b ∈ st.members, comp a b ≠ 1) ∧
      ∀ op, op.Allowed st → ∃ st', SkewStep comp st op st' := by
  have hinv : ∃ t, HoldsTree comp st t := by
    refine hrun.invariant (fun s => ∃ t, HoldsTree comp s t) ?_ ⟨nil, trivial, rfl, rfl, trivial⟩
    intro s op s' h hstep
    obtain ⟨t, h⟩ := h
    exact h.step hc hstep
  obtain ⟨t, h⟩ := hinv
  refine ⟨⟨t, h⟩, ?_, fun a ha => h.root_least hc ha, fun op hop => ?_⟩
  · rw [h.root, root_eq_none, h.elements]
    exact Finset.val_eq_zero
  · obtain ⟨st', _, hret, _⟩ := h.call hc hop
    exact ⟨st', hop, hret⟩
/-! ## A run on numbers -/

/-- The comparison of numbers. -/
def compareNat (a b : Nat) : Int :=
  if a < b then -1 else if a = b then 0 else 1

theorem compareNat_ne_one (a b : Nat) : compareNat a b ≠ 1 ↔ a ≤ b := by
  unfold compareNat
  split
  · simpa using by omega
  · split
    · simpa using by omega
    · simpa using by omega

theorem orderCompare_nat : OrderCompare compareNat where
  answer a b := by
    unfold compareNat
    split
    · exact Or.inl rfl
    · split
      · exact Or.inr (Or.inl rfl)
      · exact Or.inr (Or.inr rfl)
  swap a b := by
    unfold compareNat
    rcases lt_trichotomy a b with h | rfl | h
    · simp [h, h.le, h.ne']
    · simp
    · simp [h, h.le, h.ne']
  trans a b c := by
    simp only [compareNat_ne_one]
    exact le_trans

/-- The heap after a list of calls, the last one first. -/
def afterSkew : List (SkewOp Nat) → SkewPool Nat
  | [] => ⟨fun _ => ⟨none, none, none⟩, none, ∅⟩
  | op :: ops =>
      match callSkewHeap compareNat 4 (afterSkew ops) op with
      | done s => s
      | _ => afterSkew ops

theorem returns_afterSkew {ops : List (SkewOp Nat)} {op : SkewOp Nat}
    (h : ∀ k, callSkewHeap compareNat (k + 4) (afterSkew ops) op = done (afterSkew (op :: ops))) :
    Returns (fun bound => callSkewHeap compareNat bound (afterSkew ops) op)
      (afterSkew (op :: ops)) := by
  refine ⟨4, fun bound hbound => ?_⟩
  obtain ⟨k, rfl⟩ := Nat.exists_eq_add_of_le' hbound
  exact h k

/-- Three entries are inserted, and the one in the middle is removed. -/
theorem skew_heap_links_three :
    ∃ t, HoldsTree compareNat (afterSkew [SkewOp.remove 2, SkewOp.insert 3, SkewOp.insert 1,
      SkewOp.insert 2]) t := by
  refine (skew_heap_links orderCompare_nat (fun _ => ⟨none, none, none⟩) [SkewOp.insert 2, SkewOp.insert 1, SkewOp.insert 3,
    SkewOp.remove 2] ?_).1
  refine Run.cons (t := afterSkew [SkewOp.insert 2]) ⟨?_, ?_⟩ ?_
  · exact Finset.notMem_empty _
  · exact @returns_afterSkew [] _ fun k => rfl
  refine Run.cons (t := afterSkew [SkewOp.insert 1, SkewOp.insert 2]) ⟨?_, ?_⟩ ?_
  · change 1 ∉ Insert.insert 2 (∅ : Finset Nat)
    decide
  · exact returns_afterSkew fun k => rfl
  refine Run.cons (t := afterSkew [SkewOp.insert 3, SkewOp.insert 1, SkewOp.insert 2]) ⟨?_, ?_⟩ ?_
  · change 3 ∉ Insert.insert 1 (Insert.insert 2 (∅ : Finset Nat))
    decide
  · exact returns_afterSkew fun k => rfl
  refine Run.cons ⟨?_, ?_⟩ Run.nil
  · change 2 ∈ Insert.insert 3 (Insert.insert 1 (Insert.insert 2 (∅ : Finset Nat)))
    decide
  · exact returns_afterSkew fun k => rfl

end TriOS
