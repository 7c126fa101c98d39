import Mathlib

/-!
# Chain — doubly linked lists that end in `NULL`

`Linked next prev before head xs` says that the pointers `next` and `prev` link the nodes `xs` in this
order; `head` points to the first of them, whose `prev` is `before`. The operations are given by what
they do to the two pointer functions.
-/

namespace Chain

variable {α : Type*}

/-- The nodes `xs` are linked in this order. -/
def Linked (next prev : α → Option α) : Option α → Option α → List α → Prop
  | _, head, [] => head = none
  | before, head, x :: xs => head = some x ∧ prev x = before ∧ Linked next prev (some x) (next x) xs

/-- Assign to the pointer of a node, unless there is no node. -/
def setAt [DecidableEq α] (f : α → Option α) (node v : Option α) : α → Option α :=
  match node with
  | some x => Function.update f x v
  | none => f

variable {next prev next' prev' : α → Option α} {before head : Option α} {xs ys : List α} {x p : α}

theorem Linked.congr (h : Linked next prev before head xs) (hn : ∀ x ∈ xs, next' x = next x)
    (hp : ∀ x ∈ xs, prev' x = prev x) : Linked next' prev' before head xs := by
  induction xs generalizing before head with
  | nil => exact h
  | cons x xs ih =>
      rcases h with ⟨hhead, hprev, hrest⟩
      refine ⟨hhead, (hp x (by simp)).trans hprev, ?_⟩
      rw [hn x (by simp)]
      exact ih hrest (fun y hy => hn y (by simp [hy])) fun y hy => hp y (by simp [hy])

theorem Linked.head_eq (h : Linked next prev before head xs) : head = xs.head? := by
  cases xs with
  | nil => exact h
  | cons x xs => exact h.1

/-- What the pointers of a node in the middle are. -/
theorem Linked.mem (h : Linked next prev before head (xs ++ x :: ys)) :
    next x = ys.head? ∧ prev x = (xs.getLast?).or before := by
  induction xs generalizing before head with
  | nil => exact ⟨h.2.2.head_eq, h.2.1⟩
  | cons u us ih =>
      rcases ih h.2.2 with ⟨hnext, hprev⟩
      refine ⟨hnext, hprev.trans ?_⟩
      cases us with
      | nil => rfl
      | cons v vs =>
          rw [List.getLast?_cons_cons]
          cases hlast : (v :: vs).getLast? with
          | none => simp at hlast
          | some z => rfl

variable [DecidableEq α]

theorem setAt_of_ne {f : α → Option α} {node v : Option α} (h : node ≠ some x) :
    setAt f node v x = f x := by
  cases node with
  | none => rfl
  | some y => exact Function.update_of_ne (fun hc => h (congrArg some hc.symm)) _ _

/-- A node that is not in the list becomes the first one. -/
theorem Linked.push (h : Linked next prev none head xs) (hnd : xs.Nodup) (hp : p ∉ xs) :
    Linked (Function.update next p head) (setAt (Function.update prev p none) head (some p)) none
      (some p) (p :: xs) := by
  have hhead : head ≠ some p := by
    rw [h.head_eq]
    intro hc
    exact hp (List.mem_of_mem_head? hc)
  have hne : ∀ x ∈ xs, x ≠ p := fun x hx hc => hp (hc ▸ hx)
  refine ⟨rfl, ?_, ?_⟩
  · rw [setAt_of_ne hhead, Function.update_self]
  · rw [Function.update_self]
    cases xs with
    | nil => exact h
    | cons y ys =>
        rcases h with ⟨rfl, hprev, hrest⟩
        refine ⟨rfl, Function.update_self _ _ _, ?_⟩
        rw [Function.update_of_ne (hne y (by simp))]
        refine hrest.congr (fun x hx => Function.update_of_ne (hne x (by simp [hx])) _ _) ?_
        intro x hx
        have hxy : x ≠ y := fun hc => (List.nodup_cons.1 hnd).1 (hc ▸ hx)
        change Function.update (Function.update prev p none) y (some p) x = prev x
        rw [Function.update_of_ne hxy, Function.update_of_ne (hne x (by simp [hx]))]

/-- A node in the middle is taken out: its neighbours are linked to each other, and the head moves
on if it was the first. -/
theorem Linked.remove (h : Linked next prev before head (xs ++ x :: ys))
    (hnd : (xs ++ x :: ys).Nodup) :
    Linked (setAt next xs.getLast? (next x)) (setAt prev ys.head? (prev x)) before
      (if xs = [] then next x else head) (xs ++ ys) := by
  induction xs generalizing before head with
  | nil =>
      rcases h with ⟨_, hprev, hrest⟩
      cases ys with
      | nil => exact hrest
      | cons y ys =>
          rcases hrest with ⟨hnext, _, hrest⟩
          simp only [List.nil_append, List.nodup_cons] at hnd
          refine ⟨hnext, (Function.update_self _ _ _).trans hprev, ?_⟩
          refine hrest.congr (fun _ _ => rfl) fun z hz => ?_
          refine Function.update_of_ne ?_ _ _
          rintro rfl
          exact hnd.2.1 hz
  | cons u us ih =>
      rcases h with ⟨hhead, hprev, hrest⟩
      simp only [List.cons_append, List.nodup_cons] at hnd
      have hih := ih hrest hnd.2
      have hu : ys.head? ≠ some u := by
        intro hc
        exact hnd.1 (by simp [List.mem_of_mem_head? hc])
      refine ⟨by simp [hhead], (setAt_of_ne hu).trans hprev, ?_⟩
      cases us with
      | nil =>
          have hself : setAt next [u].getLast? (next x) u = next x := Function.update_self _ _ _
          rw [hself]
          refine hih.congr (fun z hz => ?_) fun _ _ => rfl
          refine Function.update_of_ne ?_ _ _
          rintro rfl
          exact hnd.1 (by simpa using Or.inr hz)
      | cons v vs =>
          have hlast : (u :: v :: vs).getLast? = (v :: vs).getLast? := List.getLast?_cons_cons
          have hne : (v :: vs).getLast? ≠ some u := by
            intro hc
            exact hnd.1 (List.mem_append_left _ (List.mem_of_mem_getLast? hc))
          rw [hlast, setAt_of_ne hne]
          exact hih

end Chain
