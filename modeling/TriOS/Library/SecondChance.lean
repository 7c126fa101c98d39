import Mathlib

/-!
# SecondChance — the second-chance replacement of pages

The pages are in a list, and a hand points to the page at which the next scan starts. A scan goes from the hand to
the end of the list and on from its beginning: a page that has been visited since it was last looked at is given a
second chance, and the first page that has not been visited is the victim. New pages go to the end of the list.
-/

namespace SecondChance

variable {α : Type}

/-- The pages before the hand, and those from the hand on. The hand is at a page if there is one. -/
structure Clock (α : Type) where
  behind : List α
  ahead : List α
  visited : α → Nat
  canonical : ahead = [] → behind = []

/-- The pages in the order of the list. -/
def Clock.pages (c : Clock α) : List α := c.behind ++ c.ahead

/-- The pages in the order of the next scan. -/
def Clock.order (c : Clock α) : List α := c.ahead ++ c.behind

/-- The pages that the next scan gives a second chance. -/
def Clock.passed (c : Clock α) : List α := c.order.takeWhile fun p => c.visited p ≠ 0

/-- The page that the next scan finds. When every page has been visited, all of them are passed, and the scan comes
back to the first one. -/
def Clock.victim (c : Clock α) : Option α := (c.order.find? fun p => c.visited p = 0).or c.order.head?

/-- No page. -/
def Clock.empty (visited : α → Nat) : Clock α := ⟨[], [], visited, fun _ => rfl⟩

/-- The hand between two parts of a list. After the end of the list it is at the first page again. -/
def Clock.restAt (l r : List α) (visited : α → Nat) : Clock α :=
  if h : r = [] then ⟨[], l, visited, fun _ => rfl⟩ else ⟨l, r, visited, fun hr => absurd hr h⟩

/-- The pages have other flags. -/
def Clock.touch (c : Clock α) (visited : α → Nat) : Clock α := { c with visited := visited }

section Update

variable [DecidableEq α]

/-- A new page at the end of the list. -/
def Clock.map (c : Clock α) (page : α) : Clock α :=
  ⟨c.behind, c.ahead ++ [page], Function.update c.visited page 1, fun h => absurd h (by simp)⟩

/-- The flags after the pages of a list have been passed. -/
def clear (visited : α → Nat) (ps : List α) : α → Nat := fun p => if p ∈ ps then 0 else visited p

/-- The next scan: the victim leaves the list, and the hand is at the page that followed it. -/
def Clock.evict (c : Clock α) : Clock α :=
  match c.victim with
  | none => c
  | some v =>
      Clock.restAt (c.pages.takeWhile fun p => p ≠ v) (c.pages.dropWhile fun p => p ≠ v).tail (clear c.visited c.passed)

end Update

variable {c : Clock α} {v p : α} {ps o l r : List α} {visited : α → Nat}

theorem Clock.restAt_pages : (Clock.restAt l r visited).pages = l ++ r := by
  unfold Clock.restAt Clock.pages
  split
  · rename_i hr
    rw [hr, List.append_nil]
    rfl
  · rfl

theorem Clock.restAt_visited : (Clock.restAt l r visited).visited = visited := by
  unfold Clock.restAt
  split
  · rfl
  · rfl

theorem Clock.mem_order : p ∈ c.order ↔ p ∈ c.pages := by
  unfold Clock.order Clock.pages
  rw [List.mem_append, List.mem_append, or_comm]

/-- Every page has been passed, or the victim is the first page that is not. -/
theorem Clock.victim_cases (hne : c.pages ≠ []) :
    (∃ v o, c.victim = some v ∧ c.order = c.passed ++ v :: o ∧ c.visited v = 0) ∨
      ∃ v o, c.victim = some v ∧ c.order = v :: o ∧ c.passed = c.order := by
  unfold Clock.victim
  cases hfind : c.order.find? fun p => c.visited p = 0 with
  | some v =>
      left
      obtain ⟨hv, ps, o, horder, hps⟩ := List.find?_eq_some_iff_append.1 hfind
      have hpassed : c.passed = ps := by
        unfold Clock.passed
        rw [horder, List.takeWhile_append_of_pos (by simpa using hps), List.takeWhile_cons, if_neg (by simpa using hv),
          List.append_nil]
      refine ⟨v, o, rfl, ?_, by simpa using hv⟩
      rw [hpassed]
      exact horder
  | none =>
      right
      have hall : ∀ p ∈ c.order, c.visited p ≠ 0 := by
        intro p hp
        simpa using List.find?_eq_none.1 hfind p hp
      cases horder : c.order with
      | nil =>
          obtain ⟨p, hp⟩ := List.exists_mem_of_ne_nil c.pages hne
          rw [← Clock.mem_order, horder] at hp
          exact (List.not_mem_nil hp).elim
      | cons v o =>
          refine ⟨v, o, rfl, rfl, ?_⟩
          unfold Clock.passed
          rw [horder] at hall ⊢
          exact List.takeWhile_eq_self_iff.2 (by simpa using hall)

theorem Clock.mem_passed (hp : p ∈ c.passed) : c.visited p ≠ 0 := by
  have hvisited := List.mem_takeWhile_imp hp
  simpa using hvisited

theorem Clock.length_passed_le : c.passed.length ≤ c.pages.length := by
  calc c.passed.length ≤ c.order.length := (List.takeWhile_prefix _).length_le
    _ = c.pages.length := by
      unfold Clock.order Clock.pages
      rw [List.length_append, List.length_append, Nat.add_comm]

theorem Clock.nodup_passed (hnodup : c.pages.Nodup) : c.passed.Nodup := by
  have horder : c.order.Nodup := by
    unfold Clock.order
    exact List.nodup_append_comm.1 hnodup
  exact horder.sublist (List.takeWhile_sublist _)

/-- After the pages that are passed, and without their flags, the victim comes first. -/
theorem Clock.exists_victim [DecidableEq α] (hne : c.pages ≠ []) :
    ∃ v rest o, c.victim = some v ∧ c.order = c.passed ++ rest ∧ rest ++ c.passed = v :: o ∧
      clear c.visited c.passed v = 0 := by
  rcases Clock.victim_cases hne with ⟨v, o, hvictim, horder, hv⟩ | ⟨v, o, hvictim, horder, hpassed⟩
  · refine ⟨v, v :: o, o ++ c.passed, hvictim, horder, rfl, ?_⟩
    unfold clear
    rw [hv, ite_self]
  · refine ⟨v, [], o, hvictim, ?_, ?_, ?_⟩
    · rw [hpassed, List.append_nil]
    · rw [hpassed, horder, List.nil_append]
    · unfold clear
      rw [if_pos]
      rw [hpassed, horder]
      exact List.mem_cons_self

theorem Clock.mem_of_victim (hvictim : c.victim = some v) : v ∈ c.pages := by
  have hne : c.pages ≠ [] := by
    intro hempty
    obtain ⟨hbehind, hahead⟩ := List.append_eq_nil_iff.1 hempty
    unfold Clock.victim Clock.order at hvictim
    rw [hbehind, hahead] at hvictim
    cases hvictim
  rw [← Clock.mem_order]
  rcases Clock.victim_cases hne with ⟨w, o, hw, horder, -⟩ | ⟨w, o, hw, horder, -⟩
  · rw [horder, Option.some.inj (hvictim.symm.trans hw)]
    exact List.mem_append_right _ List.mem_cons_self
  · rw [horder, Option.some.inj (hvictim.symm.trans hw)]
    exact List.mem_cons_self

/-- The list without its victim. -/
theorem Clock.evict_pages [DecidableEq α] (hvictim : c.victim = some v) :
    ∃ l r, c.pages = l ++ v :: r ∧ c.evict.pages = l ++ r := by
  obtain ⟨l, r, hsplit, hl⟩ := List.eq_append_cons_of_mem (Clock.mem_of_victim hvictim)
  have hbefore : ∀ p ∈ l, decide (p ≠ v) = true := fun p hp => decide_eq_true fun heq => hl (heq ▸ hp)
  refine ⟨l, r, hsplit, ?_⟩
  unfold Clock.evict
  rw [hvictim]
  dsimp only
  rw [Clock.restAt_pages, hsplit, List.takeWhile_append_of_pos hbefore, List.dropWhile_append_of_pos hbefore,
    List.takeWhile_cons, List.dropWhile_cons, if_neg (by simp), if_neg (by simp), List.append_nil, List.tail_cons]

end SecondChance
