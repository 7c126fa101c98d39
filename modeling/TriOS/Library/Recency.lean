import Mathlib

/-!
# Recency — the items in use, by their last use

A history of uses and evictions, the newest event first. The items that are resident are those that
were used and not evicted since; `Recent` orders them by their last use. Using an item moves it to
the front, and an eviction takes the last item away, which is the one with the oldest use.
-/

namespace Recency

variable {α : Type*}

/-- An item is used, or an item is evicted; an eviction may find nothing. -/
inductive Event (α : Type*) where
  | touch (a : α)
  | evict (victim : Option α)
  deriving DecidableEq, Repr

/-- Used, and not evicted since. -/
def Resident (a : α) : List (Event α) → Prop
  | [] => False
  | Event.touch b :: h => b = a ∨ Resident a h
  | Event.evict v :: h => v ≠ some a ∧ Resident a h

variable [DecidableEq α]

/-- The number of events up to the last use of `a`. -/
def lastTouch (a : α) : List (Event α) → Nat
  | [] => 0
  | Event.touch b :: h => if b = a then h.length + 1 else lastTouch a h
  | Event.evict _ :: h => lastTouch a h

/-- The list holds each resident item once, the one with the newest use first. -/
structure Recent (h : List (Event α)) (l : List α) : Prop where
  nodup : l.Nodup
  mem : ∀ a, a ∈ l ↔ Resident a h
  newer : l.Pairwise fun a b => lastTouch b h < lastTouch a h

variable {h : List (Event α)} {l : List α} {a b : α}

theorem lastTouch_le (a : α) (h : List (Event α)) : lastTouch a h ≤ h.length := by
  induction h with
  | nil => exact le_rfl
  | cons e h ih =>
      cases e with
      | touch b =>
          unfold lastTouch
          split
          · exact le_rfl
          · exact ih.trans (Nat.le_succ _)
      | evict v => exact ih.trans (Nat.le_succ _)

theorem lastTouch_touch_self : lastTouch a (Event.touch a :: h) = h.length + 1 :=
  if_pos rfl

theorem lastTouch_touch_of_ne (hb : b ≠ a) : lastTouch b (Event.touch a :: h) = lastTouch b h :=
  if_neg hb.symm

/-- A use moves the item to the front. -/
theorem Recent.touch (r : Recent h l) (a : α) : Recent (Event.touch a :: h) (a :: l.erase a) := by
  have hrest : ∀ b, b ∈ l.erase a ↔ b ≠ a ∧ b ∈ l := fun b => r.nodup.mem_erase_iff
  refine ⟨?_, fun b => ?_, ?_⟩
  · exact List.nodup_cons.2 ⟨fun hc => ((hrest a).1 hc).1 rfl, r.nodup.erase a⟩
  · rw [List.mem_cons, hrest, r.mem]
    change _ ↔ a = b ∨ Resident b h
    constructor
    · rintro (rfl | ⟨_, hb⟩)
      · exact Or.inl rfl
      · exact Or.inr hb
    · rintro (rfl | hb)
      · exact Or.inl rfl
      · by_cases hba : b = a
        · exact Or.inl hba
        · exact Or.inr ⟨hba, hb⟩
  · refine List.pairwise_cons.2 ⟨fun b hb => ?_, ?_⟩
    · have hba := ((hrest b).1 hb).1
      rw [lastTouch_touch_self, lastTouch_touch_of_ne hba]
      exact Nat.lt_succ_of_le (lastTouch_le b h)
    · refine (r.newer.sublist List.erase_sublist).imp_of_mem fun {b c} hb hc hlt => ?_
      rw [lastTouch_touch_of_ne ((hrest b).1 hb).1, lastTouch_touch_of_ne ((hrest c).1 hc).1]
      exact hlt

/-- The last item has the oldest use, and is evicted. -/
theorem Recent.evict (r : Recent h (l ++ [a])) : Recent (Event.evict (some a) :: h) l := by
  have hnd := List.nodup_append.1 r.nodup
  refine ⟨hnd.1, fun b => ?_, (List.pairwise_append.1 r.newer).1⟩
  change _ ↔ some a ≠ some b ∧ Resident b h
  rw [← r.mem, List.mem_append, List.mem_singleton]
  constructor
  · intro hb
    refine ⟨fun hab => ?_, Or.inl hb⟩
    have hne := hnd.2.2 b hb a (List.mem_singleton_self a)
    exact hne (Option.some.inj hab).symm
  · rintro ⟨hne, hb | rfl⟩
    · exact hb
    · exact absurd rfl hne

/-- An eviction that finds nothing. -/
theorem Recent.evict_none (r : Recent h l) : Recent (Event.evict none :: h) l := by
  refine ⟨r.nodup, fun b => ?_, r.newer⟩
  change _ ↔ none ≠ some b ∧ Resident b h
  rw [r.mem]
  simp

theorem Recent.oldest (r : Recent h (l ++ [a])) :
    Resident a h ∧ ∀ b, Resident b h → b ≠ a → lastTouch a h < lastTouch b h := by
  refine ⟨(r.mem a).1 (by simp), fun b hb hne => ?_⟩
  have hmem : b ∈ l := by
    have := (r.mem b).2 hb
    simpa [hne] using this
  exact (List.pairwise_append.1 r.newer).2.2 b hmem a (List.mem_singleton_self a)

/-- A history has one order only. -/
theorem Recent.unique {l' : List α} (r : Recent h l) (r' : Recent h l') : l = l' := by
  have hperm : List.Perm l l' :=
    (List.perm_ext_iff_of_nodup r.nodup r'.nodup).2 fun a => (r.mem a).trans (r'.mem a).symm
  exact hperm.eq_of_pairwise (fun _ _ _ _ hab hba => absurd hab hba.asymm) r.newer r'.newer

theorem recent_nil : Recent ([] : List (Event α)) [] :=
  ⟨List.nodup_nil, fun a => by simp [Resident], List.Pairwise.nil⟩

end Recency
