import Mathlib

/-!
# DeltaQueue — deadlines stored as differences

A delta queue is a list of entries `(a, d)` in which `d` is the time between the deadline of the
entry before it and its own. `due now q` lists the entries with their absolute deadlines. The rules
say what the edits of a delta queue do to these deadlines.
-/

namespace DeltaQueue

variable {α : Type*}

/-- The entries with their absolute deadlines, for a queue whose first difference counts from
`now`. -/
def due (now : Nat) : List (α × Nat) → List (α × Nat)
  | [] => []
  | (a, d) :: q => (a, now + d) :: due (now + d) q

/-- The entries in order. -/
def keys (q : List (α × Nat)) : List α :=
  q.map Prod.fst

/-- Lower the first difference. -/
def lower (d : Nat) : List (α × Nat) → List (α × Nat)
  | [] => []
  | (a, e) :: q => (a, e - d) :: q

/-- Raise the first difference. -/
def raise (d : Nat) : List (α × Nat) → List (α × Nat)
  | [] => []
  | (a, e) :: q => (a, e + d) :: q

/-- A new entry that is due in `d`, behind the entries that are due no later. -/
def place (a : α) (d : Nat) : List (α × Nat) → List (α × Nat)
  | [] => [(a, d)]
  | (b, e) :: q => if d < e then (a, d) :: lower d ((b, e) :: q) else (b, e) :: place a (d - e) q

/-- The entry `a` is taken out; its difference goes to the entry behind it. -/
def remove [DecidableEq α] (a : α) : List (α × Nat) → List (α × Nat)
  | [] => []
  | (b, e) :: q => if b = a then raise e q else (b, e) :: remove a q

/-- The entries at the front that are due now. -/
def expired (q : List (α × Nat)) : List (α × Nat) :=
  q.takeWhile fun x => x.2 == 0

/-- The entries behind them. -/
def pending (q : List (α × Nat)) : List (α × Nat) :=
  q.dropWhile fun x => x.2 == 0

/-- The first entry is not due now. -/
def Live (q : List (α × Nat)) : Prop :=
  ∀ x ∈ q.head?, 0 < x.2

variable {now d : Nat} {a : α} {q : List (α × Nat)} {x : α × Nat}

@[simp] theorem due_nil : due now ([] : List (α × Nat)) = [] := rfl

@[simp] theorem due_cons : due now ((a, d) :: q) = (a, now + d) :: due (now + d) q := rfl

@[simp] theorem keys_nil : keys ([] : List (α × Nat)) = [] := rfl

@[simp] theorem keys_cons : keys (x :: q) = x.1 :: keys q := rfl

@[simp] theorem keys_append {q' : List (α × Nat)} : keys (q ++ q') = keys q ++ keys q' := by
  simp [keys]

@[simp] theorem keys_lower : keys (lower d q) = keys q := by
  cases q <;> rfl

@[simp] theorem keys_raise : keys (raise d q) = keys q := by
  cases q <;> rfl

@[simp] theorem raise_zero : raise 0 q = q := by
  cases q <;> rfl

theorem map_fst_due : (due now q).map Prod.fst = keys q := by
  induction q generalizing now with
  | nil => rfl
  | cons x q ih => simp [due, ih]

theorem mem_keys_of_mem_due (h : x ∈ due now q) : x.1 ∈ keys q := by
  have hmem : x.1 ∈ (due now q).map Prod.fst := List.mem_map_of_mem h
  rwa [map_fst_due] at hmem

theorem exists_mem_due (h : a ∈ keys q) : ∃ t, (a, t) ∈ due now q := by
  have hmem : a ∈ (due now q).map Prod.fst := by
    rw [map_fst_due]
    exact h
  rcases List.mem_map.1 hmem with ⟨⟨b, t⟩, hb, rfl⟩
  exact ⟨t, hb⟩

/-- Deadlines are not in the past. -/
theorem le_of_mem_due (h : x ∈ due now q) : now ≤ x.2 := by
  induction q generalizing now with
  | nil => cases h
  | cons y q ih =>
      rcases List.mem_cons.1 h with rfl | h
      · exact Nat.le_add_right _ _
      · exact le_trans (Nat.le_add_right _ _) (ih h)

/-- In a live queue no deadline is now. -/
theorem Live.lt_of_mem_due (hlive : Live q) (h : x ∈ due now q) : now < x.2 := by
  cases q with
  | nil => cases h
  | cons y q =>
      have hy : 0 < y.2 := hlive y (by simp)
      rcases List.mem_cons.1 h with rfl | h
      · exact Nat.lt_add_of_pos_right hy
      · have := le_of_mem_due h
        omega

theorem due_append {q' : List (α × Nat)} :
    due now (q ++ q') = due now q ++ due (now + (q.map Prod.snd).sum) q' := by
  induction q generalizing now with
  | nil => simp
  | cons y q ih => simp [due, ih, Nat.add_assoc]

/-- The differences of two neighbours are bounded by the deadline of the second one. -/
theorem add_le_of_due {bound : Nat} {y : α × Nat} {q' : List (α × Nat)}
    (h : ∀ z ∈ due now (q ++ x :: y :: q'), z.2 < now + bound) : y.2 + x.2 < bound := by
  have := h (y.1, now + (q.map Prod.snd).sum + x.2 + y.2) (by simp [due_append, due])
  simp only at this
  omega

theorem due_lower (hd : ∀ y ∈ q.head?, d ≤ y.2) : due (now + d) (lower d q) = due now q := by
  cases q with
  | nil => rfl
  | cons y q =>
      have hle : d ≤ y.2 := hd y (by simp)
      have hsum : now + d + (y.2 - d) = now + y.2 := by omega
      simp [lower, due, hsum]

theorem due_raise : due now (raise d q) = due (now + d) q := by
  cases q with
  | nil => rfl
  | cons y q =>
      have hsum : now + (y.2 + d) = now + d + y.2 := by omega
      simp [raise, due, hsum]

/-! ## Insertion -/

theorem perm_keys_place : List.Perm (keys (place a d q)) (a :: keys q) := by
  induction q generalizing d with
  | nil => exact List.Perm.refl _
  | cons y q ih =>
      by_cases hlt : d < y.2
      · simp [place, hlt]
      · simp only [place, hlt, if_false, keys_cons]
        exact (List.Perm.cons _ ih).trans (List.Perm.swap _ _ _)

theorem mem_due_place : x ∈ due now (place a d q) ↔ x = (a, now + d) ∨ x ∈ due now q := by
  induction q generalizing now d with
  | nil => simp [place]
  | cons y q ih =>
      by_cases hlt : d < y.2
      · have hlow : due (now + d) (lower d (y :: q)) = due now (y :: q) :=
          due_lower (by simpa using hlt.le)
        simp [place, hlt, hlow]
      · have hsum : now + y.2 + (d - y.2) = now + d := by omega
        simp only [place, hlt, if_false, due, List.mem_cons, ih, hsum]
        tauto

theorem live_place (hd : 0 < d) (h : Live q) : Live (place a d q) := by
  cases q with
  | nil => simpa [Live, place] using hd
  | cons y q =>
      have hy : 0 < y.2 := h y (by simp)
      by_cases hlt : d < y.2
      · simpa [Live, place, hlt] using hd
      · simpa [Live, place, hlt] using hy

/-! ## Removal -/

section Remove

variable [DecidableEq α]

theorem remove_append {y : α × Nat} {q' : List (α × Nat)} (h : y.1 ∉ keys q) :
    remove y.1 (q ++ y :: q') = q ++ raise y.2 q' := by
  induction q with
  | nil => simp [remove]
  | cons z q ih =>
      have hne : z.1 ≠ y.1 := fun hc => h (by simp [hc])
      have hq : y.1 ∉ keys q := fun hc => h (by simp [hc])
      simp [remove, hne, ih hq]

theorem remove_of_not_mem (ha : a ∉ keys q) : remove a q = q := by
  induction q with
  | nil => rfl
  | cons z q ih =>
      have hne : z.1 ≠ a := fun hc => ha (by simp [hc])
      have hq : a ∉ keys q := fun hc => ha (by simp [hc])
      simp [remove, hne, ih hq]

theorem live_remove (h : Live q) : Live (remove a q) := by
  cases q with
  | nil => exact h
  | cons y q =>
      have hy : 0 < y.2 := h y (by simp)
      by_cases hya : y.1 = a
      · cases q with
        | nil => simp [Live, remove, raise, hya]
        | cons z q =>
            intro x hx
            have hxz : x = (z.1, z.2 + y.2) := by
              simpa [remove, raise, hya, eq_comm] using hx
            rw [hxz]
            exact Nat.add_pos_right _ hy
      · simpa [Live, remove, hya] using hy

theorem mem_due_remove (hnodup : (keys q).Nodup) :
    x ∈ due now (remove a q) ↔ x ∈ due now q ∧ x.1 ≠ a := by
  by_cases ha : a ∈ keys q
  · rcases List.mem_map.1 ha with ⟨y, hy, rfl⟩
    rcases List.append_of_mem hy with ⟨q1, q2, rfl⟩
    simp only [keys_append, keys_cons, List.nodup_append, List.nodup_cons] at hnodup
    have hq1 : y.1 ∉ keys q1 := fun hc => hnodup.2.2 _ hc _ (by simp) rfl
    rw [remove_append hq1]
    simp only [due_append, due_raise, due, List.mem_append, List.mem_cons]
    constructor
    · rintro (h | h)
      · exact ⟨Or.inl h, fun hc => hq1 (hc ▸ mem_keys_of_mem_due h)⟩
      · exact ⟨Or.inr (Or.inr h), fun hc => hnodup.2.1.1 (hc ▸ mem_keys_of_mem_due h)⟩
    · rintro ⟨h | rfl | h, hne⟩
      · exact Or.inl h
      · exact absurd rfl hne
      · exact Or.inr h
  · rw [remove_of_not_mem ha]
    exact ⟨fun h => ⟨h, fun hc => ha (hc ▸ mem_keys_of_mem_due h)⟩, fun h => h.1⟩

end Remove

/-! ## Time -/

/-- The first difference is lowered by the time that passes: no deadline changes. -/
theorem Live.due_tick (h : Live q) : due (now + 1) (lower 1 q) = due now q :=
  due_lower fun y hy => h y hy

theorem expired_cons_of_zero (hx : x.2 = 0) : expired (x :: q) = x :: expired q := by
  simp [expired, hx]

theorem expired_cons_of_ne (hx : x.2 ≠ 0) : expired (x :: q) = [] := by
  simp [expired, hx]

theorem pending_cons_of_zero (hx : x.2 = 0) : pending (x :: q) = pending q := by
  simp [pending, hx]

theorem pending_cons_of_ne (hx : x.2 ≠ 0) : pending (x :: q) = x :: q := by
  simp [pending, hx]

theorem mem_due_expired (h : x ∈ due now (expired q)) : x.2 = now := by
  induction q with
  | nil => cases h
  | cons y q ih =>
      by_cases hy : y.2 = 0
      · rw [expired_cons_of_zero hy] at h
        simp only [due, List.mem_cons, hy, Nat.add_zero] at h
        rcases h with rfl | h
        · rfl
        · exact ih h
      · rw [expired_cons_of_ne hy] at h
        cases h

theorem live_pending : Live (pending q) := by
  intro y hy
  have hhead := List.head?_dropWhile_not (fun x : α × Nat => x.2 == 0) q
  unfold pending at hy
  rw [Option.mem_def] at hy
  rw [hy] at hhead
  simpa [Nat.pos_iff_ne_zero] using hhead

theorem due_split : due now q = due now (expired q) ++ due now (pending q) := by
  have hzero : ((expired q).map Prod.snd).sum = 0 := by
    rw [List.sum_eq_zero_iff]
    intro n hn
    rcases List.mem_map.1 hn with ⟨y, hy, rfl⟩
    simpa using List.mem_takeWhile_imp hy
  have happ := @due_append α now (expired q) (pending q)
  rw [hzero, Nat.add_zero] at happ
  rw [← happ]
  unfold expired pending
  rw [List.takeWhile_append_dropWhile]

/-- The entries due now are the expired ones, and the pending ones keep their deadlines. -/
theorem mem_due_pending : x ∈ due now (pending q) ↔ x ∈ due now q ∧ x.2 ≠ now := by
  rw [due_split (q := q), List.mem_append]
  constructor
  · intro h
    exact ⟨Or.inr h, (live_pending.lt_of_mem_due h).ne'⟩
  · rintro ⟨h | h, hne⟩
    · exact absurd (mem_due_expired h) hne
    · exact h

theorem mem_keys_expired : a ∈ keys (expired q) ↔ (a, now) ∈ due now q := by
  rw [due_split (q := q), List.mem_append]
  constructor
  · intro h
    have hdue : ∃ t, (a, t) ∈ due now (expired q) := exists_mem_due h
    rcases hdue with ⟨t, ht⟩
    have hnow : t = now := mem_due_expired ht
    exact Or.inl (hnow ▸ ht)
  · rintro (h | h)
    · exact mem_keys_of_mem_due h
    · exact absurd rfl (live_pending.lt_of_mem_due h).ne

end DeltaQueue
