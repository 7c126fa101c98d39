import Mathlib

/-!
# Intervals — sorted lists of disjoint intervals

An interval is anything with a lower and an upper end, `lo` inside and `hi` outside. In a list of nonempty
intervals that is sorted, and in which they do not overlap, a point is in one of them at most, so that a search
from the front finds the interval of a point if there is one.
-/

namespace Intervals

variable {α : Type}

/-- The intervals are not empty, and each ends before the next one begins. -/
structure Sorted (lo hi : α → Nat) (vs : List α) : Prop where
  nonempty : ∀ v ∈ vs, lo v < hi v
  disjoint : vs.Pairwise fun v w => hi v ≤ lo w

/-- The point is in the interval. -/
def Contains (lo hi : α → Nat) (v : α) (x : Nat) : Prop := lo v ≤ x ∧ x < hi v

instance (lo hi : α → Nat) (v : α) (x : Nat) : Decidable (Contains lo hi v x) :=
  inferInstanceAs (Decidable (_ ∧ _))

/-- The interval has a point in `[a, b)`. -/
def Meets (lo hi : α → Nat) (v : α) (a b : Nat) : Prop := lo v < b ∧ a < hi v

variable {lo hi : α → Nat} {vs l r : List α} {u v w : α} {x : Nat}

theorem sorted_nil : Sorted lo hi [] :=
  ⟨fun _ hv => (List.not_mem_nil hv).elim, List.Pairwise.nil⟩

theorem Sorted.of_append (h : Sorted lo hi (l ++ r)) : Sorted lo hi l ∧ Sorted lo hi r := by
  obtain ⟨hl, hr, -⟩ := List.pairwise_append.1 h.disjoint
  exact ⟨⟨fun v hv => h.nonempty v (List.mem_append_left r hv), hl⟩,
    ⟨fun v hv => h.nonempty v (List.mem_append_right l hv), hr⟩⟩

/-! ## Points -/

/-- Two intervals of the list that share a point are the same. -/
theorem Sorted.unique (h : Sorted lo hi vs) (hv : v ∈ vs) (hw : w ∈ vs) (hvx : Contains lo hi v x)
    (hwx : Contains lo hi w x) : v = w := by
  induction vs with
  | nil => exact (List.not_mem_nil hv).elim
  | cons u us ih =>
      obtain ⟨hfirst, hrest⟩ := List.pairwise_cons.1 h.disjoint
      have hus : Sorted lo hi us := ⟨fun v hv => h.nonempty v (List.mem_cons_of_mem u hv), hrest⟩
      rcases List.mem_cons.1 hv with rfl | hv'
      · rcases List.mem_cons.1 hw with rfl | hw'
        · rfl
        · have hle := hfirst w hw'
          have hlt := hvx.2
          have hge := hwx.1
          omega
      · rcases List.mem_cons.1 hw with rfl | hw'
        · have hle := hfirst v hv'
          have hlt := hwx.2
          have hge := hvx.1
          omega
        · exact ih hus hv' hw'

/-- A search finds the interval of a point, and nothing else. -/
theorem Sorted.find?_eq_some (h : Sorted lo hi vs) :
    vs.find? (fun v => Contains lo hi v x) = some v ↔ v ∈ vs ∧ Contains lo hi v x := by
  constructor
  · intro hfind
    have hx := List.find?_some hfind
    exact ⟨List.mem_of_find?_eq_some hfind, by simpa using hx⟩
  · rintro ⟨hv, hx⟩
    cases hfind : vs.find? (fun v => Contains lo hi v x) with
    | none => exact absurd (decide_eq_true hx) (List.find?_eq_none.1 hfind v hv)
    | some w =>
        have hw := List.mem_of_find?_eq_some hfind
        have hwx : Contains lo hi w x := by
          have hx := List.find?_some hfind
          simpa using hx
        rw [h.unique hw hv hwx hx]

/-! ## A new interval -/

/-- The intervals that begin at or below the new one come first. -/
theorem Sorted.split (h : Sorted lo hi vs) (x : Nat) :
    (∀ v ∈ vs.takeWhile (fun v => lo v ≤ x), lo v ≤ x) ∧ ∀ v ∈ vs.dropWhile (fun v => lo v ≤ x), x < lo v := by
  refine ⟨fun v hv => ?_, ?_⟩
  · have hle := List.mem_takeWhile_imp hv
    simpa using hle
  · have hsorted : (vs.dropWhile fun v => lo v ≤ x).Pairwise fun v w => lo v < lo w := by
      have hmono : vs.Pairwise fun v w => lo v < lo w := by
        apply h.disjoint.imp_of_mem
        intro v w hv _ hvw
        have hlt := h.nonempty v hv
        omega
      exact hmono.sublist (List.dropWhile_sublist _)
    cases hdrop : vs.dropWhile (fun v => lo v ≤ x) with
    | nil => exact fun v hv => (List.not_mem_nil hv).elim
    | cons u us =>
        have hu : x < lo u := by
          have hhead := List.head_dropWhile_not (fun v => decide (lo v ≤ x)) (l := vs) (by simp [hdrop])
          simp only [hdrop, List.head_cons, decide_eq_false_iff_not, not_le] at hhead
          exact hhead
        rw [hdrop] at hsorted
        intro v hv
        rcases List.mem_cons.1 hv with rfl | hv'
        · exact hu
        · exact hu.trans ((List.pairwise_cons.1 hsorted).1 v hv')

/-- A new interval between those that end before it and those that begin after it. -/
theorem Sorted.insert (h : Sorted lo hi (l ++ r)) (hu : lo u < hi u) (hl : ∀ v ∈ l, hi v ≤ lo u)
    (hr : ∀ v ∈ r, hi u ≤ lo v) : Sorted lo hi (l ++ u :: r) := by
  obtain ⟨hdl, hdr, hcross⟩ := List.pairwise_append.1 h.disjoint
  refine ⟨fun v hv => ?_, List.pairwise_append.2 ⟨hdl, List.pairwise_cons.2 ⟨hr, hdr⟩, fun v hv w hw => ?_⟩⟩
  · rcases List.mem_append.1 hv with hv | hv
    · exact h.nonempty v (List.mem_append_left r hv)
    · rcases List.mem_cons.1 hv with rfl | hv
      · exact hu
      · exact h.nonempty v (List.mem_append_right l hv)
  · rcases List.mem_cons.1 hw with rfl | hw
    · exact hl v hv
    · exact hcross v hv w hw

/-- The last of the intervals ends last. -/
theorem Sorted.le_getLast (h : Sorted lo hi vs) (hv : v ∈ vs) (hlast : vs.getLast? = some w) : hi v ≤ hi w := by
  induction vs with
  | nil => exact (List.not_mem_nil hv).elim
  | cons u us ih =>
      obtain ⟨hfirst, hrest⟩ := List.pairwise_cons.1 h.disjoint
      have hus : Sorted lo hi us := ⟨fun v hv => h.nonempty v (List.mem_cons_of_mem u hv), hrest⟩
      cases us with
      | nil =>
          rcases List.mem_singleton.1 hv with rfl
          cases hlast
          exact le_refl _
      | cons u' us =>
          have hlast' : (u' :: us).getLast? = some w := by rwa [List.getLast?_cons_cons] at hlast
          have hw := List.mem_of_getLast? hlast'
          rcases List.mem_cons.1 hv with rfl | hv'
          · have hle := hfirst w hw
            have hlt := hus.nonempty w hw
            omega
          · exact ih hus hv' hlast'

/-- The first of the intervals begins first. -/
theorem Sorted.head_le (h : Sorted lo hi vs) (hv : v ∈ vs) (hhead : vs.head? = some w) : lo w ≤ lo v := by
  cases vs with
  | nil => exact (List.not_mem_nil hv).elim
  | cons u us =>
      cases hhead
      rcases List.mem_cons.1 hv with rfl | hv'
      · exact le_refl _
      · have hle := (List.pairwise_cons.1 h.disjoint).1 v hv'
        have hlt := h.nonempty w List.mem_cons_self
        omega

end Intervals
