import Mathlib

/-!
# OneWay — linked lists with one pointer in a node

`Path next a xs b` says that the pointers lead from `a` through the nodes `xs` to `b`; a path from `a`
to `a` is a circular list. The rules say how a path is cut in two, turned, and changed behind one of
its nodes.
-/

namespace OneWay

variable {α : Type*}

/-- The nodes between `a` and `b`. -/
def Path (next : α → α) : α → List α → α → Prop
  | a, [], b => next a = b
  | a, x :: xs, b => next a = x ∧ Path next x xs b

/-- The part of a path behind some node. -/
def Tail (next : α → α) : List α → α → Prop
  | [], _ => True
  | y :: ys, b => Path next y ys b

variable {next next' : α → α} {a b c x : α} {xs ys : List α}

theorem path_append : Path next a (xs ++ ys) b ↔ Path next a xs (ys.headD b) ∧ Tail next ys b := by
  induction xs generalizing a with
  | nil =>
      cases ys with
      | nil => exact (and_iff_left trivial).symm
      | cons y ys => exact Iff.rfl
  | cons x xs ih =>
      calc Path next a (x :: xs ++ ys) b ↔ next a = x ∧ Path next x (xs ++ ys) b := Iff.rfl
        _ ↔ next a = x ∧ Path next x xs (ys.headD b) ∧ Tail next ys b := by rw [ih]
        _ ↔ Path next a (x :: xs) (ys.headD b) ∧ Tail next ys b := and_assoc.symm

theorem path_append_cons : Path next a (xs ++ x :: ys) b ↔ Path next a xs x ∧ Path next x ys b :=
  path_append

/-- A path is its first pointer and the part behind it. -/
theorem path_iff_tail : Path next a ys b ↔ next a = ys.headD b ∧ Tail next ys b :=
  @path_append α next a b [] ys

theorem Path.congr (h : Path next a xs b) (hsame : ∀ x ∈ a :: xs, next' x = next x) :
    Path next' a xs b := by
  induction xs generalizing a with
  | nil => exact (hsame a List.mem_cons_self).trans h
  | cons x xs ih =>
      exact ⟨(hsame a List.mem_cons_self).trans h.1,
        ih h.2 fun y hy => hsame y (List.mem_cons_of_mem _ hy)⟩

theorem Tail.congr (h : Tail next ys b) (hsame : ∀ x ∈ ys, next' x = next x) : Tail next' ys b := by
  cases ys with
  | nil => trivial
  | cons y ys => exact Path.congr h hsame

/-- The pointers of the nodes, in their order. -/
theorem Path.map_next (h : Path next a xs b) : (a :: xs).map next = xs ++ [b] := by
  induction xs generalizing a with
  | nil => exact congrArg (fun y => [y]) h
  | cons x xs ih => rw [List.map_cons, h.1, ih h.2, List.cons_append]

/-- A circular list can be entered at any of its nodes. -/
theorem Path.rotate (h : Path next a (xs ++ x :: ys) a) : Path next x (ys ++ a :: xs) x :=
  path_append_cons.2 (path_append_cons.1 h).symm

theorem Path.last (h : Path next a xs b) : next (xs.getLastD a) = b := by
  induction xs generalizing a with
  | nil => exact h
  | cons x xs ih =>
      rw [List.getLastD_cons]
      exact ih h.2

theorem getLastD_mem (xs : List α) (a : α) : xs.getLastD a ∈ a :: xs := by
  induction xs generalizing a with
  | nil => exact List.mem_cons_self
  | cons x xs ih =>
      rw [List.getLastD_cons]
      exact List.mem_cons_of_mem _ (ih x)

/-- Only the last pointer of a path is changed. -/
theorem Path.redirect (h : Path next a xs b) (hnodup : (a :: xs).Nodup)
    (hsame : ∀ x ∈ a :: xs, x ≠ xs.getLastD a → next' x = next x) (hlast : next' (xs.getLastD a) = c) :
    Path next' a xs c := by
  induction xs generalizing a with
  | nil => exact hlast
  | cons x xs ih =>
      obtain ⟨ha, hnodup⟩ := List.nodup_cons.1 hnodup
      rw [List.getLastD_cons] at hsame hlast
      refine ⟨?_, ih h.2 hnodup (fun y hy => hsame y (List.mem_cons_of_mem _ hy)) hlast⟩
      have hne : a ≠ xs.getLastD x := by
        intro heq
        exact ha (heq ▸ getLastD_mem xs x)
      exact (hsame a List.mem_cons_self hne).trans h.1

/-- In a circular list a node has one predecessor. -/
theorem Path.next_inj (h : Path next a xs a) (hnodup : (a :: xs).Nodup) (hb : b ∈ a :: xs) (hc : c ∈ a :: xs)
    (heq : next b = next c) : b = c := by
  have hmap : ((a :: xs).map next).Nodup := by
    rw [h.map_next]
    exact (List.perm_append_singleton a xs).nodup_iff.2 hnodup
  exact List.inj_on_of_nodup_map hmap hb hc heq

/-- What lies behind the first nodes of a path is replaced, and with it the last pointer of these. -/
theorem Path.splice {ys' : List α} (h : Path next a (xs ++ ys) b) (hnodup : (a :: xs).Nodup)
    (hsame : ∀ x ∈ a :: xs, x ≠ xs.getLastD a → next' x = next x)
    (hlast : next' (xs.getLastD a) = ys'.headD b) (htail : Tail next' ys' b) :
    Path next' a (xs ++ ys') b :=
  path_append.2 ⟨(path_append.1 h).1.redirect hnodup hsame hlast, htail⟩

/-- A circular list, entered at a node of it. -/
theorem Path.enter (h : Path next a xs a) (hx : x ∈ a :: xs) :
    ∃ ys, Path next x ys x ∧ (x :: ys).Perm (a :: xs) := by
  rcases List.mem_cons.1 hx with rfl | hx
  · exact ⟨xs, h, List.Perm.refl _⟩
  · obtain ⟨us, vs, rfl⟩ := List.append_of_mem hx
    refine ⟨vs ++ a :: us, h.rotate, ?_⟩
    have hperm : ((x :: vs) ++ (a :: us)).Perm ((a :: us) ++ (x :: vs)) := List.perm_append_comm
    exact hperm

/-! ## Walks -/

/-- Follow the pointers, for at most `k` nodes, up to one at which to stop. -/
def walk (next : α → α) (stop : α → Prop) [DecidablePred stop] : Nat → α → Option α
  | 0, _ => none
  | k + 1, a => if stop a then some a else walk next stop k (next a)

variable {stop : α → Prop} [DecidablePred stop] {k : Nat}

/-- A walk along a path with a node to stop at ends at such a node. -/
theorem Path.walk_stops (h : Path next a xs b) (hc : c ∈ a :: xs) (hstop : stop c) :
    ∃ d ∈ a :: xs, stop d ∧ ∀ k, xs.length < k → walk next stop k a = some d := by
  induction xs generalizing a with
  | nil =>
      obtain rfl := List.mem_singleton.1 hc
      refine ⟨c, List.mem_cons_self, hstop, fun k hk => ?_⟩
      obtain ⟨k, rfl⟩ := Nat.exists_eq_succ_of_ne_zero (Nat.ne_of_gt hk)
      exact if_pos hstop
  | cons x xs ih =>
      by_cases ha : stop a
      · refine ⟨a, List.mem_cons_self, ha, fun k hk => ?_⟩
        obtain ⟨k, rfl⟩ := Nat.exists_eq_succ_of_ne_zero (Nat.ne_of_gt (Nat.zero_lt_of_lt hk))
        exact if_pos ha
      · have hc' : c ∈ x :: xs := by
          rcases List.mem_cons.1 hc with rfl | hc
          · exact absurd hstop ha
          · exact hc
        obtain ⟨d, hd, hstop', hwalk⟩ := ih h.2 hc'
        refine ⟨d, List.mem_cons_of_mem _ hd, hstop', fun k hk => ?_⟩
        obtain ⟨k, rfl⟩ := Nat.exists_eq_succ_of_ne_zero (Nat.ne_of_gt (Nat.zero_lt_of_lt hk))
        rw [walk, if_neg ha, h.1]
        exact hwalk k (Nat.lt_of_succ_lt_succ hk)

/-! ## Ascending circular lists -/

/-- On an ascending path the pointer of a node leads to the next larger node, or from the largest to the
end. -/
theorem Path.ascending {next : Nat → Nat} {a b y : Nat} {xs : List Nat} (h : Path next a xs b)
    (hsorted : (a :: xs).Pairwise (· < ·)) (hy : y ∈ a :: xs) :
    (next y = b ∧ ∀ z ∈ a :: xs, z ≤ y) ∨
      (y < next y ∧ next y ∈ xs ∧ ∀ z ∈ a :: xs, z ≤ y ∨ next y ≤ z) := by
  induction xs generalizing a with
  | nil =>
      obtain rfl := List.mem_singleton.1 hy
      exact Or.inl ⟨h, fun z hz => (List.mem_singleton.1 hz).le⟩
  | cons x xs ih =>
      obtain ⟨hlt, hsorted⟩ := List.pairwise_cons.1 hsorted
      have hle : ∀ z ∈ x :: xs, x ≤ z := by
        intro z hz
        rcases List.mem_cons.1 hz with rfl | hz
        · exact le_rfl
        · exact ((List.pairwise_cons.1 hsorted).1 z hz).le
      rcases List.mem_cons.1 hy with rfl | hy
      · refine Or.inr ⟨?_, ?_, fun z hz => ?_⟩
        · rw [h.1]
          exact hlt x List.mem_cons_self
        · rw [h.1]
          exact List.mem_cons_self
        · rw [h.1]
          rcases List.mem_cons.1 hz with rfl | hz
          · exact Or.inl le_rfl
          · exact Or.inr (hle z hz)
      · have hay : a ≤ y := (hlt y hy).le
        rcases ih h.2 hsorted hy with ⟨hend, hlast⟩ | ⟨hup, hmem, hbetween⟩
        · refine Or.inl ⟨hend, fun z hz => ?_⟩
          rcases List.mem_cons.1 hz with rfl | hz
          · exact hay
          · exact hlast z hz
        · refine Or.inr ⟨hup, List.mem_cons_of_mem _ hmem, fun z hz => ?_⟩
          rcases List.mem_cons.1 hz with rfl | hz
          · exact Or.inl hay
          · exact hbetween z hz

/-- The last element of an ascending list is the largest. -/
theorem le_getLastD {a z : Nat} {xs : List Nat} (hsorted : (a :: xs).Pairwise (· < ·)) (hz : z ∈ a :: xs) :
    z ≤ xs.getLastD a := by
  induction xs generalizing a z with
  | nil => exact (List.mem_singleton.1 hz).le
  | cons x xs ih =>
      obtain ⟨hlt, hrest⟩ := List.pairwise_cons.1 hsorted
      rw [List.getLastD_cons]
      rcases List.mem_cons.1 hz with hza | hz
      · calc z = a := hza
          _ ≤ x := (hlt x List.mem_cons_self).le
          _ ≤ xs.getLastD x := ih hrest List.mem_cons_self
      · exact ih hrest hz

end OneWay
