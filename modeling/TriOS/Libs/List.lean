import TriOS.Library.CircularList

/-!
# list.h — the intrusive lists of the kernel

The inline functions of `libs/list.h`, with their stores in the order of the source. A node is the
address of a `list_entry_t`; the link fields of all nodes are one `Links` value. Each function then
gets the rule that says what it does to a ring.
-/

namespace TriOS

open CircularList

variable {α : Type*} [DecidableEq α]

/-- `list_init` -/
def listInit (m : Links α) (elm : α) : Links α :=
  (m.setNext elm elm).setPrev elm elm

/-- `__list_add` -/
def listAddBetween (m : Links α) (elm prev next : α) : Links α :=
  (((m.setPrev next elm).setNext prev elm).setNext elm next).setPrev elm prev

/-- `__list_del` -/
def listDelBetween (m : Links α) (prev next : α) : Links α :=
  (m.setNext prev next).setPrev next prev

/-- `list_add_before` -/
def listAddBefore (m : Links α) (listelm elm : α) : Links α :=
  listAddBetween m elm (m.prev listelm) listelm

/-- `list_add_after` -/
def listAddAfter (m : Links α) (listelm elm : α) : Links α :=
  listAddBetween m elm listelm (m.next listelm)

/-- `list_add` -/
def listAdd (m : Links α) (listelm elm : α) : Links α :=
  listAddAfter m listelm elm

/-- `list_del` -/
def listDel (m : Links α) (listelm : α) : Links α :=
  listDelBetween m (m.prev listelm) (m.next listelm)

/-- `list_del_init` -/
def listDelInit (m : Links α) (listelm : α) : Links α :=
  listInit (listDel m listelm) listelm

/-- `list_next` -/
def listNext (m : Links α) (listelm : α) : α :=
  m.next listelm

/-- `list_prev` -/
def listPrev (m : Links α) (listelm : α) : α :=
  m.prev listelm

/-- `list_empty` -/
def listEmpty (m : Links α) (list : α) : Prop :=
  m.next list = list

instance (m : Links α) (list : α) : Decidable (listEmpty m list) := by
  unfold listEmpty
  infer_instance

variable {m : Links α} {h e : α} {xs ys : List α}

theorem ring_listInit (m : Links α) (h : α) : Ring (listInit m h) h [] := by
  refine ⟨by simp, ?_, ?_⟩
  · simp [listInit, Links.setNext_next]
  · simp [listInit, Links.setPrev_prev]

theorem listEmpty_listInit (m : Links α) (h : α) : listEmpty (listInit m h) h :=
  (ring_listInit m h).segment.1

theorem ring_listAdd (r : Ring m h (xs ++ ys)) (he : e ∉ h :: (xs ++ ys)) :
    Ring (listAdd m (xs.getLastD h) e) h (xs ++ e :: ys) := by
  have hins := r.splice he
  rw [← r.next_getLastD] at hins
  exact hins

theorem ring_listAddBefore (r : Ring m h (xs ++ ys)) (he : e ∉ h :: (xs ++ ys)) :
    Ring (listAddBefore m (ys.headD h) e) h (xs ++ e :: ys) := by
  have hins := r.splice he
  rw [← r.prev_headD] at hins
  exact hins

/-- `list_add` of a node behind itself keeps every `next` and makes the node its own `prev`. -/
theorem listAdd_self (m : Links α) (e : α) :
    (listAdd m e e).next = m.next ∧ (listAdd m e e).prev e = e := by
  refine ⟨?_, ?_⟩
  · funext c
    by_cases hc : c = e
    · simp [listAdd, listAddAfter, listAddBetween, Links.setNext_next, hc]
    · simp [listAdd, listAddAfter, listAddBetween, Links.setNext_next, hc]
  · simp [listAdd, listAddAfter, listAddBetween, Links.setPrev_prev]

theorem ring_listDel (r : Ring m h (xs ++ e :: ys)) : Ring (listDel m e) h (xs ++ ys) :=
  r.unsplice

/-- `list_init` of a node leaves the rings alone in which the node is not linked. -/
theorem ring_listInit_of_not_mem (r : Ring m h xs) (he : e ∉ h :: xs) :
    Ring (listInit m e) h xs := by
  refine r.congr ?_ ?_
  · intro x hx
    have hxe : x ≠ e := fun hc => he (hc ▸ hx)
    simp [listInit, Links.setNext_next, hxe]
  · intro x hx
    have hxe : x ≠ e := fun hc => he (hc ▸ hx)
    simp [listInit, Links.setPrev_prev, hxe]

theorem ring_listDelInit (r : Ring m h (xs ++ e :: ys)) :
    Ring (listDelInit m e) h (xs ++ ys) := by
  refine ring_listInit_of_not_mem (ring_listDel r) ?_
  have hperm : List.Perm (e :: ((h :: xs) ++ ys)) ((h :: xs) ++ e :: ys) :=
    List.perm_middle.symm
  exact (List.nodup_cons.1 (hperm.nodup_iff.2 r.nodup)).1

/-! ## Frame rules -/

variable {h' : α} {zs : List α}

/-- Deleting a node of one ring leaves a ring without common nodes alone. -/
theorem ring_listDelInit_frame (r : Ring m h (xs ++ e :: ys)) (r' : Ring m h' zs)
    (hdis : ∀ x ∈ h' :: zs, x ∉ h :: (xs ++ e :: ys)) : Ring (listDelInit m e) h' zs := by
  have he : e ∈ h :: (xs ++ e :: ys) := by simp
  have hprev : m.prev e ∈ h :: (xs ++ e :: ys) := by
    rw [r.prev_mem]
    rcases List.eq_nil_or_concat xs with rfl | ⟨us, u, rfl⟩
    · simp
    · rw [List.concat_eq_append, getLastD_concat]
      simp
  have hnext := (r.prev_next he).2
  have hne : ∀ x ∈ h' :: zs, x ≠ e ∧ x ≠ m.prev e ∧ x ≠ m.next e := by
    intro x hx
    exact ⟨fun hc => hdis x hx (hc ▸ he), fun hc => hdis x hx (hc ▸ hprev),
      fun hc => hdis x hx (hc ▸ hnext)⟩
  refine r'.congr ?_ ?_
  · intro x hx
    rcases hne x hx with ⟨h1, h2, _⟩
    simp [listDelInit, listInit, listDel, listDelBetween, Links.setNext_next, h1, h2]
  · intro x hx
    rcases hne x hx with ⟨h1, _, h3⟩
    simp [listDelInit, listInit, listDel, listDelBetween, Links.setPrev_prev, h1, h3]

/-- Adding a node to one ring leaves a ring without common nodes alone. -/
theorem ring_listAddBefore_frame (r : Ring m h xs) (r' : Ring m h' zs)
    (hdis : ∀ x ∈ h' :: zs, x ∉ h :: xs) (he : e ∉ h' :: zs) :
    Ring (listAddBefore m h e) h' zs := by
  have hprev : m.prev h ∈ h :: xs := by
    rw [r.prev_head]
    rcases List.eq_nil_or_concat xs with rfl | ⟨us, u, rfl⟩
    · simp
    · rw [List.concat_eq_append, getLastD_concat]
      simp
  have hne : ∀ x ∈ h' :: zs, x ≠ e ∧ x ≠ h ∧ x ≠ m.prev h := by
    intro x hx
    exact ⟨fun hc => he (hc ▸ hx), fun hc => hdis x hx (by simp [hc]),
      fun hc => hdis x hx (hc ▸ hprev)⟩
  refine r'.congr ?_ ?_
  · intro x hx
    rcases hne x hx with ⟨h1, _, h3⟩
    simp [listAddBefore, listAddBetween, Links.setNext_next, h1, h3]
  · intro x hx
    rcases hne x hx with ⟨h1, h2, _⟩
    simp [listAddBefore, listAddBetween, Links.setPrev_prev, h1, h2]

/-- The same for a node that is added anywhere in the ring. -/
theorem ring_listAddBefore_frame_at (r : Ring m h (xs ++ ys)) (r' : Ring m h' zs)
    (hdis : ∀ x ∈ h' :: zs, x ∉ h :: (xs ++ ys)) (he : e ∉ h' :: zs) :
    Ring (listAddBefore m (ys.headD h) e) h' zs := by
  cases ys with
  | nil => exact ring_listAddBefore_frame r r' hdis he
  | cons y ys =>
      refine ring_listAddBefore_frame r.rotate r' (fun x hx hc => hdis x hx ?_) he
      simp only [List.mem_cons, List.mem_append] at hc ⊢
      tauto

omit [DecidableEq α] in
theorem listEmpty_iff (r : Ring m h xs) : listEmpty m h ↔ xs = [] :=
  r.next_eq_head_iff

end TriOS
