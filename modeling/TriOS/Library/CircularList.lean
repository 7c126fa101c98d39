import Mathlib

/-!
# CircularList — intrusive circular doubly linked lists

A memory of list nodes is a pair of maps `next` and `prev` over a type of node addresses.
`Ring m h xs` says that the nodes `h, x₁, …, xₙ` form a closed ring in both directions. The rules
say what a splice and an unsplice of one node do to a ring, and that a ring only depends on the
links of its own nodes.
-/

namespace CircularList

/-- The link fields of all nodes. -/
structure Links (α : Type*) where
  next : α → α
  prev : α → α

variable {α : Type*}

section Update

variable [DecidableEq α]

/-- Store into one `next` field. -/
def Links.setNext (m : Links α) (a b : α) : Links α :=
  { m with next := Function.update m.next a b }

/-- Store into one `prev` field. -/
def Links.setPrev (m : Links α) (a b : α) : Links α :=
  { m with prev := Function.update m.prev a b }

theorem Links.setNext_next (m : Links α) (a b c : α) :
    (m.setNext a b).next c = if c = a then b else m.next c := by
  simp [Links.setNext, Function.update_apply]

@[simp] theorem Links.setNext_prev (m : Links α) (a b : α) : (m.setNext a b).prev = m.prev := rfl

@[simp] theorem Links.setPrev_next (m : Links α) (a b : α) : (m.setPrev a b).next = m.next := rfl

theorem Links.setPrev_prev (m : Links α) (a b c : α) :
    (m.setPrev a b).prev c = if c = a then b else m.prev c := by
  simp [Links.setPrev, Function.update_apply]

/-- Put `e` between the nodes `p` and `n`. -/
def Links.splice (m : Links α) (e p n : α) : Links α :=
  (((m.setPrev n e).setNext p e).setNext e n).setPrev e p

/-- Take out whatever stands between `p` and `n`. -/
def Links.unsplice (m : Links α) (p n : α) : Links α :=
  (m.setNext p n).setPrev n p

end Update

/-! ## Segments -/

/-- `xs` are the nodes strictly between `a` and `b`, and every link on the way is mutual. -/
def Segment (m : Links α) : α → List α → α → Prop
  | a, [], b => m.next a = b ∧ m.prev b = a
  | a, x :: xs, b => (m.next a = x ∧ m.prev x = a) ∧ Segment m x xs b

theorem segment_append {m : Links α} {y b : α} {ys : List α} (xs : List α) (a : α) :
    Segment m a (xs ++ y :: ys) b ↔ Segment m a xs y ∧ Segment m y ys b := by
  induction xs generalizing a with
  | nil =>
      simp [Segment]
  | cons x xs ih =>
      simp only [List.cons_append, Segment, ih, and_assoc]

/-- A segment only depends on the `next` fields of its nodes and the `prev` fields after them. -/
theorem Segment.congr {m m' : Links α} {b : α} :
    ∀ {xs : List α} {a : α}, Segment m a xs b →
      (∀ x ∈ a :: xs, m'.next x = m.next x) → (∀ x ∈ b :: xs, m'.prev x = m.prev x) →
      Segment m' a xs b
  | [], a, h, hn, hp => by
      refine ⟨?_, ?_⟩
      · rw [hn a (by simp)]
        exact h.1
      · rw [hp b (by simp)]
        exact h.2
  | x :: xs, a, h, hn, hp => by
      refine ⟨⟨?_, ?_⟩, ?_⟩
      · rw [hn a (by simp)]
        exact h.1.1
      · rw [hp x (by simp)]
        exact h.1.2
      · refine Segment.congr h.2 (fun y hy => hn y (List.mem_cons_of_mem _ hy)) ?_
        intro y hy
        rcases List.mem_cons.1 hy with rfl | hy
        · exact hp y (by simp)
        · exact hp y (by simp [hy])

/-! ## Rings -/

/-- The nodes `h :: xs` form a circular doubly linked list. -/
structure Ring (m : Links α) (h : α) (xs : List α) : Prop where
  nodup : (h :: xs).Nodup
  segment : Segment m h xs h

variable {m m' : Links α} {h p e : α} {xs ys : List α}

/-- Frame rule: a ring only depends on the links of its own nodes. -/
theorem Ring.congr (r : Ring m h xs) (hn : ∀ x ∈ h :: xs, m'.next x = m.next x)
    (hp : ∀ x ∈ h :: xs, m'.prev x = m.prev x) : Ring m' h xs :=
  ⟨r.nodup, r.segment.congr hn hp⟩

/-- A ring can be read from any of its nodes. -/
theorem Ring.rotate (r : Ring m h (xs ++ p :: ys)) : Ring m p (ys ++ h :: xs) := by
  rcases (segment_append xs h).1 r.segment with ⟨h1, h2⟩
  refine ⟨?_, (segment_append ys p).2 ⟨h2, h1⟩⟩
  have hperm : List.Perm (p :: (ys ++ h :: xs)) (h :: (xs ++ p :: ys)) := by
    have e1 : p :: (ys ++ h :: xs) = (p :: ys) ++ (h :: xs) := by simp
    have e2 : h :: (xs ++ p :: ys) = (h :: xs) ++ (p :: ys) := by simp
    rw [e1, e2]
    exact List.perm_append_comm
  exact hperm.nodup_iff.2 r.nodup

theorem getLastD_concat (zs : List α) (z d : α) : (zs ++ [z]).getLastD d = z := by
  simp [List.getLastD_eq_getLast?]

/-- What follows the last node of an initial part is the first node of the rest. -/
theorem Ring.next_getLastD (r : Ring m h (xs ++ ys)) : m.next (xs.getLastD h) = ys.headD h := by
  have head : ∀ {h : α} {zs : List α}, Ring m h zs → m.next h = zs.headD h := by
    intro h zs r
    cases zs with
    | nil => exact r.segment.1
    | cons z zs => exact r.segment.1.1
  rcases List.eq_nil_or_concat xs with rfl | ⟨zs, z, rfl⟩
  · simpa using head r
  · have r' : Ring m h (zs ++ z :: ys) := by
      simpa using r
    have := head r'.rotate
    cases ys with
    | nil => simpa using this
    | cons y ys => simpa using this

/-- What precedes the first node of a final part is the last node of the part before it. -/
theorem Ring.prev_headD (r : Ring m h (xs ++ ys)) : m.prev (ys.headD h) = xs.getLastD h := by
  have last : ∀ {h : α} {zs : List α}, Ring m h zs → m.prev h = zs.getLastD h := by
    intro h zs r
    rcases List.eq_nil_or_concat zs with rfl | ⟨us, u, rfl⟩
    · exact r.segment.2
    · have hseg : Segment m h (us ++ [u]) h := by
        simpa using r.segment
      have := ((segment_append us h).1 hseg).2.2
      simpa using this
  cases ys with
  | nil => simpa using last r
  | cons y ys =>
      have := last r.rotate
      rcases List.eq_nil_or_concat xs with rfl | ⟨zs, z, rfl⟩
      · simpa using this
      · have hlist : ys ++ h :: zs.concat z = (ys ++ h :: zs) ++ [z] := by
          simp
        have hy : m.prev ((y :: ys).headD h) = ((ys ++ h :: zs) ++ [z]).getLastD y := by
          rw [← hlist]
          exact this
        rw [hy, List.concat_eq_append, getLastD_concat, getLastD_concat]

theorem Ring.next_head (r : Ring m h xs) : m.next h = xs.headD h := by
  have r' : Ring m h ([] ++ xs) := r
  simpa using r'.next_getLastD

theorem Ring.prev_head (r : Ring m h xs) : m.prev h = xs.getLastD h := by
  have r' : Ring m h (xs ++ []) := by
    simpa using r
  simpa using r'.prev_headD

theorem Ring.next_mem (r : Ring m h (xs ++ p :: ys)) : m.next p = ys.headD h := by
  have r' : Ring m h ((xs ++ [p]) ++ ys) := by
    simpa using r
  simpa using r'.next_getLastD

theorem Ring.prev_mem (r : Ring m h (xs ++ p :: ys)) : m.prev p = xs.getLastD h := by
  simpa using r.prev_headD

/-- In a ring `prev` undoes `next`. -/
theorem Ring.prev_next (r : Ring m h xs) {x : α} (hx : x ∈ h :: xs) :
    m.prev (m.next x) = x ∧ m.next x ∈ h :: xs := by
  have head : ∀ {h : α} {zs : List α}, Ring m h zs →
      m.prev (m.next h) = h ∧ m.next h ∈ h :: zs := by
    intro h zs r
    cases zs with
    | nil =>
        have hnext : m.next h = h := r.segment.1
        rw [hnext]
        exact ⟨r.segment.2, by simp⟩
    | cons z zs =>
        have hnext : m.next h = z := r.segment.1.1
        rw [hnext]
        exact ⟨r.segment.1.2, by simp⟩
  rcases List.mem_cons.1 hx with rfl | hx
  · exact head r
  · -- Read the ring from `x`.
    rcases List.append_of_mem hx with ⟨us, vs, rfl⟩
    rcases head r.rotate with ⟨h1, h2⟩
    refine ⟨h1, ?_⟩
    simp only [List.mem_cons, List.mem_append] at h2 ⊢
    tauto

/-- A property of the head that `next` carries on holds of every node. -/
theorem Ring.forall_of_next (r : Ring m h xs) (P : α → Prop) (h0 : P h)
    (hnext : ∀ x, P x → P (m.next x)) : ∀ x ∈ h :: xs, P x := by
  have along : ∀ {zs : List α} {a : α}, Segment m a zs h → P a → ∀ x ∈ a :: zs, P x := by
    intro zs
    induction zs with
    | nil =>
        intro a _ ha x hx
        have hxa : x = a := by
          simpa using hx
        exact hxa ▸ ha
    | cons z zs ih =>
        intro a hseg ha x hx
        have hz : P z := hseg.1.1 ▸ hnext a ha
        rcases List.mem_cons.1 hx with rfl | hx
        · exact ha
        · exact ih hseg.2 hz x hx
  exact along r.segment h0

/-- The nodes of the ring through `h` are determined by the links. -/
theorem Ring.mem_iff (r : Ring m h xs) (r' : Ring m h ys) (x : α) : x ∈ xs ↔ x ∈ ys := by
  have sub : ∀ {us vs : List α}, Ring m h us → Ring m h vs → x ∈ us → x ∈ vs := by
    intro us vs ru rv hx
    have hall := ru.forall_of_next (fun y => y ∈ h :: vs) (by simp) fun y hy => (rv.prev_next hy).2
    have hne : x ≠ h := fun hc => (List.nodup_cons.1 ru.nodup).1 (hc ▸ hx)
    rcases List.mem_cons.1 (hall x (List.mem_cons_of_mem _ hx)) with hc | hc
    · exact absurd hc hne
    · exact hc
  exact ⟨sub r r', sub r' r⟩

theorem Ring.not_mem (r : Ring m h xs) : h ∉ xs :=
  (List.nodup_cons.1 r.nodup).1

/-- The ring is empty exactly when its head points to itself. -/
theorem Ring.next_eq_head_iff (r : Ring m h xs) : m.next h = h ↔ xs = [] := by
  rw [r.next_head]
  cases xs with
  | nil => simp
  | cons x xs =>
      have hne : x ≠ h := fun hx => r.not_mem (by simp [hx])
      simpa using hne

section Splice

variable [DecidableEq α]

/-- Links of nodes that are not named by a splice are kept. -/
theorem Links.splice_next_of_ne (m : Links α) {e p n c : α} (hp : c ≠ p) (he : c ≠ e) :
    (m.splice e p n).next c = m.next c := by
  simp [Links.splice, Links.setNext_next, hp, he]

theorem Links.splice_prev_of_ne (m : Links α) {e p n c : α} (hn : c ≠ n) (he : c ≠ e) :
    (m.splice e p n).prev c = m.prev c := by
  simp [Links.splice, Links.setPrev_prev, hn, he]

theorem Links.unsplice_next_of_ne (m : Links α) {p n c : α} (hp : c ≠ p) :
    (m.unsplice p n).next c = m.next c := by
  simp [Links.unsplice, Links.setNext_next, hp]

theorem Links.unsplice_prev_of_ne (m : Links α) {p n c : α} (hn : c ≠ n) :
    (m.unsplice p n).prev c = m.prev c := by
  simp [Links.unsplice, Links.setPrev_prev, hn]

/-- A fresh node spliced in after the head becomes the first node. -/
theorem Ring.splice_head (r : Ring m h xs) (he : e ∉ h :: xs) :
    Ring (m.splice e h (m.next h)) h (e :: xs) := by
  have heh : e ≠ h := fun hc => he (by simp [hc])
  have hexs : e ∉ xs := fun hc => he (by simp [hc])
  have hnodup : (h :: e :: xs).Nodup := by
    have := r.nodup
    simp only [List.nodup_cons, List.mem_cons, not_or] at this ⊢
    exact ⟨⟨heh.symm, this.1⟩, hexs, this.2⟩
  refine ⟨hnodup, ⟨⟨?_, ?_⟩, ?_⟩⟩
  · simp [Links.splice, Links.setNext_next, heh.symm]
  · simp [Links.splice, Links.setPrev_prev]
  · cases xs with
    | nil =>
        have hnext : m.next h = h := r.segment.1
        refine ⟨?_, ?_⟩
        · simp [Links.splice, Links.setNext_next, hnext]
        · simp [Links.splice, Links.setPrev_prev, hnext, heh.symm]
    | cons x t =>
        have hnext : m.next h = x := r.segment.1.1
        have hxe : x ≠ e := fun hc => hexs (by simp [hc])
        have hnd := r.nodup
        simp only [List.nodup_cons, List.mem_cons, not_or] at hnd
        refine ⟨⟨?_, ?_⟩, ?_⟩
        · simp [Links.splice, Links.setNext_next, hnext]
        · simp [Links.splice, Links.setPrev_prev, hnext, hxe]
        · refine r.segment.2.congr ?_ ?_
          · intro y hy
            have hye : y ≠ e := fun hc => hexs (hc ▸ hy)
            have hyh : y ≠ h := fun hc => r.not_mem (hc ▸ hy)
            exact m.splice_next_of_ne hyh hye
          · intro y hy
            rw [hnext]
            rcases List.mem_cons.1 hy with rfl | hyt
            · exact m.splice_prev_of_ne (Ne.symm (fun hc => hnd.1.1 hc.symm)) heh.symm
            · have hyx : y ≠ x := fun hc => hnd.2.1 (hc ▸ hyt)
              have hye : y ≠ e := fun hc => hexs (by simp [← hc, hyt])
              exact m.splice_prev_of_ne hyx hye

/-- A fresh node spliced in at any place of the ring. -/
theorem Ring.splice (r : Ring m h (xs ++ ys)) (he : e ∉ h :: (xs ++ ys)) :
    Ring (m.splice e (xs.getLastD h) (ys.headD h)) h (xs ++ e :: ys) := by
  have hnext := r.next_getLastD
  rcases List.eq_nil_or_concat xs with rfl | ⟨zs, z, rfl⟩
  · change Ring (m.splice e h (ys.headD h)) h (e :: ys)
    have hn : m.next h = ys.headD h := hnext
    rw [← hn]
    exact Ring.splice_head r he
  · -- Read the ring from `z`, splice after this head, and rotate back.
    have r' : Ring m h (zs ++ z :: ys) := by
      simpa using r
    have he' : e ∉ z :: (ys ++ h :: zs) := by
      intro hc
      apply he
      simp only [List.mem_cons, List.mem_append, List.concat_eq_append] at hc ⊢
      tauto
    have hlast : (zs.concat z).getLastD h = z := by
      simp
    have hins : Ring (m.splice e z (m.next z)) z ((e :: ys) ++ h :: zs) := by
      simpa using r'.rotate.splice_head he'
    rw [hlast] at hnext ⊢
    rw [← hnext]
    simpa using hins.rotate

/-- The node after the head is taken out. -/
theorem Ring.unsplice_head (r : Ring m h (e :: xs)) :
    Ring (m.unsplice (m.prev e) (m.next e)) h xs := by
  have hprev : m.prev e = h := r.segment.1.2
  have hnd := r.nodup
  simp only [List.nodup_cons, List.mem_cons, not_or] at hnd
  have hnodup : (h :: xs).Nodup := List.nodup_cons.2 ⟨hnd.1.2, hnd.2.2⟩
  refine ⟨hnodup, ?_⟩
  have hseg := r.segment.2
  cases xs with
  | nil =>
      have hnext : m.next e = h := hseg.1
      rw [hprev, hnext]
      refine ⟨?_, ?_⟩
      · simp [Links.unsplice, Links.setNext_next]
      · simp [Links.unsplice, Links.setPrev_prev]
  | cons x t =>
      have hnext : m.next e = x := hseg.1.1
      rw [hprev, hnext]
      refine ⟨⟨?_, ?_⟩, ?_⟩
      · simp [Links.unsplice, Links.setNext_next]
      · simp [Links.unsplice, Links.setPrev_prev]
      · refine hseg.2.congr ?_ ?_
        · intro y hy
          have hyh : y ≠ h := fun hc => hnd.1.2 (hc ▸ hy)
          exact m.unsplice_next_of_ne hyh
        · intro y hy
          refine m.unsplice_prev_of_ne ?_
          rcases List.mem_cons.1 hy with rfl | hyt
          · exact fun hc => hnd.1.2 (by simp [hc])
          · have hxt := (List.nodup_cons.1 hnd.2.2).1
            exact fun hc => hxt (hc ▸ hyt)

/-- Any node of the ring but its head is taken out. -/
theorem Ring.unsplice (r : Ring m h (xs ++ e :: ys)) :
    Ring (m.unsplice (m.prev e) (m.next e)) h (xs ++ ys) := by
  rcases List.eq_nil_or_concat xs with rfl | ⟨zs, z, rfl⟩
  · exact r.unsplice_head
  · have r' : Ring m h (zs ++ z :: (e :: ys)) := by
      simpa using r
    have hrot : Ring m z (e :: (ys ++ h :: zs)) := by
      simpa using r'.rotate
    simpa using hrot.unsplice_head.rotate

end Splice

end CircularList
