import TriOS.Library.Chain
import TriOS.Library.Outcome
import TriOS.Process.Proc

/-!
# proc.c — the process tree

The pointers `parent`, `cptr` (the youngest child), `yptr` and `optr` (the next younger and the next
older sibling), and what `set_links`, `remove_links` and the loop of `do_exit` do to them. The list
of the children of every process is kept.
-/

namespace TriOS

open Chain Outcome

/-- Change one descriptor. -/
def setField (procs : Nat → Proc) (p : Nat) (f : Proc → Proc) : Nat → Proc :=
  Function.update procs p (f (procs p))

/-- Change the descriptor that a pointer points to, unless it is `NULL`. -/
def setFieldAt (procs : Nat → Proc) (pointer : Option Nat) (f : Proc → Proc) : Nat → Proc :=
  match pointer with
  | some p => setField procs p f
  | none => procs

/-- The pointers that `set_links` changes. A `NULL` parent faults. -/
def linkChild (procs : Nat → Proc) (p : Nat) : Outcome (Nat → Proc) :=
  match (procs p).parent with
  | none => panic
  | some parent =>
      let procs := setField procs p fun v => { v with yptr := none }
      let older := (procs parent).cptr
      let procs := setField procs p fun v => { v with optr := older }
      let procs := setFieldAt procs older fun v => { v with yptr := some p }
      pure (setField procs parent fun v => { v with cptr := some p })

/-- `remove_links` at the younger sibling, or at the parent if there is none. -/
def unlinkYounger (procs : Nat → Proc) (p : Nat) : Outcome (Nat → Proc) :=
  match (procs p).yptr with
  | some y => pure (setField procs y fun v => { v with optr := (procs p).optr })
  | none =>
      match (procs p).parent with
      | some q => pure (setField procs q fun v => { v with cptr := (procs p).optr })
      | none => panic

/-- The pointers that `remove_links` changes. -/
def unlinkChild (procs : Nat → Proc) (p : Nat) : Outcome (Nat → Proc) :=
  unlinkYounger (setFieldAt procs (procs p).optr fun v => { v with yptr := (procs p).yptr }) p

/-- One round of the loop of `do_exit`: `initproc` adopts the youngest child of the current
process. -/
def adoptChild (procs : Nat → Proc) (current initproc child : Nat) : Nat → Proc :=
  let procs := setField procs current fun v => { v with cptr := (procs child).optr }
  let procs := setField procs child fun v => { v with yptr := none }
  let older := (procs initproc).cptr
  let procs := setField procs child fun v => { v with optr := older }
  let procs := setFieldAt procs older fun v => { v with yptr := some child }
  let procs := setField procs child fun v => { v with parent := some initproc }
  setField procs initproc fun v => { v with cptr := some child }

/-- The two descriptors agree but for the pointers of the process tree. -/
def SameBody (v w : Proc) : Prop :=
  v = { w with parent := v.parent, cptr := v.cptr, yptr := v.yptr, optr := v.optr }

variable {procs procs' : Nat → Proc} {p q current initproc child : Nat} {pointer : Option Nat}
  {f : Proc → Proc}

theorem SameBody.refl (v : Proc) : SameBody v v := rfl

theorem SameBody.trans {u v w : Proc} (h : SameBody u v) (h' : SameBody v w) : SameBody u w := by
  unfold SameBody at *
  rw [h, h']

theorem SameBody.fields {v w : Proc} (h : SameBody v w) : v.state = w.state ∧ v.pid = w.pid ∧
    v.run = w.run ∧ v.waitState = w.waitState ∧ v.exitCode = w.exitCode := by
  unfold SameBody at h
  rw [h]
  exact ⟨rfl, rfl, rfl, rfl, rfl⟩

/-- A field of the descriptors after one of them has changed. -/
theorem setField_field {β : Type} (g : Proc → β) (procs : Nat → Proc) (p : Nat) (f : Proc → Proc) :
    (fun x => g (setField procs p f x)) =
      Function.update (fun x => g (procs x)) p (g (f (procs p))) := by
  funext x
  by_cases hx : x = p
  · simp [setField, hx]
  · simp [setField, hx]

/-- A change that does not concern the field. -/
theorem setField_same {β : Type} (g : Proc → β) (procs : Nat → Proc) (p : Nat) (f : Proc → Proc)
    (hg : ∀ v, g (f v) = g v) : (fun x => g (setField procs p f x)) = fun x => g (procs x) := by
  rw [setField_field, hg, Function.update_eq_self]

theorem setFieldAt_same {β : Type} (g : Proc → β) (procs : Nat → Proc) (pointer : Option Nat)
    (f : Proc → Proc) (hg : ∀ v, g (f v) = g v) :
    (fun x => g (setFieldAt procs pointer f x)) = fun x => g (procs x) := by
  cases pointer with
  | none => rfl
  | some p => exact setField_same g procs p f hg

theorem setFieldAt_yptr (procs : Nat → Proc) (pointer v : Option Nat) :
    (fun x => (setFieldAt procs pointer (fun w => { w with yptr := v }) x).yptr) =
      setAt (fun x => (procs x).yptr) pointer v := by
  cases pointer with
  | none => rfl
  | some p => exact setField_field Proc.yptr procs p _

theorem sameBody_setField (procs : Nat → Proc) (p x : Nat) (hf : ∀ v, SameBody (f v) v) :
    SameBody (setField procs p f x) (procs x) := by
  by_cases hx : x = p
  · simpa [setField, hx] using hf (procs p)
  · simp [setField, hx, SameBody.refl]

theorem sameBody_setFieldAt (procs : Nat → Proc) (pointer : Option Nat) (x : Nat)
    (hf : ∀ v, SameBody (f v) v) : SameBody (setFieldAt procs pointer f x) (procs x) := by
  cases pointer with
  | none => exact SameBody.refl _
  | some p => exact sameBody_setField procs p x hf

/-! ## What the operations do to the pointers -/

theorem linkChild_spec (hp : (procs p).parent = some q) :
    ∃ procs', linkChild procs p = done procs' ∧
      (fun x => (procs' x).optr) = Function.update (fun x => (procs x).optr) p (procs q).cptr ∧
      (fun x => (procs' x).yptr) = setAt (Function.update (fun x => (procs x).yptr) p none)
        (procs q).cptr (some p) ∧
      (fun x => (procs' x).cptr) = Function.update (fun x => (procs x).cptr) q (some p) ∧
      (fun x => (procs' x).parent) = (fun x => (procs x).parent) ∧
      ∀ x, SameBody (procs' x) (procs x) := by
  let procs1 := setField procs p fun v => { v with yptr := none }
  have hcptr1 : (fun x => (procs1 x).cptr) = fun x => (procs x).cptr := by
    rw [setField_same Proc.cptr]
    exact fun _ => rfl
  have holder : (procs1 q).cptr = (procs q).cptr := congrFun hcptr1 q
  let procs2 := setField procs1 p fun v => { v with optr := (procs q).cptr }
  let procs3 := setFieldAt procs2 (procs q).cptr fun v => { v with yptr := some p }
  refine ⟨setField procs3 q fun v => { v with cptr := some p }, ?_, ?_, ?_, ?_, ?_, fun x => ?_⟩
  · have hlink : linkChild procs p = pure (setField
        (setFieldAt (setField procs1 p fun v => { v with optr := (procs1 q).cptr })
          (procs1 q).cptr fun v => { v with yptr := some p }) q
        fun v => { v with cptr := some p }) := by
      simp only [linkChild, hp]
      rfl
    rw [hlink, holder]
    rfl
  · rw [setField_same Proc.optr, setFieldAt_same Proc.optr,
      setField_field Proc.optr, setField_same Proc.optr]
    all_goals exact fun _ => rfl
  · rw [setField_same Proc.yptr, setFieldAt_yptr,
      setField_same Proc.yptr, setField_field Proc.yptr]
    all_goals exact fun _ => rfl
  · rw [setField_field Proc.cptr, setFieldAt_same Proc.cptr,
      setField_same Proc.cptr, setField_same Proc.cptr]
    all_goals exact fun _ => rfl
  · rw [setField_same Proc.parent, setFieldAt_same Proc.parent,
      setField_same Proc.parent, setField_same Proc.parent]
    all_goals exact fun _ => rfl
  · refine (sameBody_setField _ _ x ?_).trans ((sameBody_setFieldAt _ _ x ?_).trans
      ((sameBody_setField _ _ x ?_).trans (sameBody_setField _ _ x ?_)))
    all_goals exact fun _ => rfl

theorem unlinkChild_spec (hp : (procs p).parent = some q) (hself : (procs p).optr ≠ some p) :
    ∃ procs', unlinkChild procs p = done procs' ∧
      (fun x => (procs' x).optr) =
        setAt (fun x => (procs x).optr) (procs p).yptr (procs p).optr ∧
      (fun x => (procs' x).yptr) =
        setAt (fun x => (procs x).yptr) (procs p).optr (procs p).yptr ∧
      (fun x => (procs' x).cptr) = (if (procs p).yptr = none then
        Function.update (fun x => (procs x).cptr) q (procs p).optr else fun x => (procs x).cptr) ∧
      (fun x => (procs' x).parent) = (fun x => (procs x).parent) ∧
      ∀ x, SameBody (procs' x) (procs x) := by
  let procs1 := setFieldAt procs (procs p).optr fun v => { v with yptr := (procs p).yptr }
  -- The node itself is not the one that is changed.
  have hp1 : procs1 p = procs p := by
    cases ho : (procs p).optr with
    | none => simp [procs1, ho, setFieldAt]
    | some o =>
        have hne : p ≠ o := fun hc => hself (by rw [ho, hc])
        simp [procs1, ho, setFieldAt, setField, hne]
  have hyptr1 : (fun x => (procs1 x).yptr) =
      setAt (fun x => (procs x).yptr) (procs p).optr (procs p).yptr := setFieldAt_yptr _ _ _
  have hbody1 : ∀ x, SameBody (procs1 x) (procs x) := by
    intro x
    refine sameBody_setFieldAt _ _ x ?_
    exact fun _ => rfl
  cases hy : (procs p).yptr with
  | some y =>
      refine ⟨setField procs1 y fun v => { v with optr := (procs p).optr }, ?_, ?_, ?_, ?_, ?_,
        fun x => (sameBody_setField _ _ x (by exact fun _ => rfl)).trans (hbody1 x)⟩
      · change unlinkYounger procs1 p = _
        simp only [unlinkYounger, hp1, hy, pure_eq_done]
      · rw [setField_field Proc.optr, setFieldAt_same Proc.optr]
        · rfl
        all_goals exact fun _ => rfl
      · rw [setField_same Proc.yptr, hyptr1, hy]
        all_goals exact fun _ => rfl
      · rw [setField_same Proc.cptr, setFieldAt_same Proc.cptr]
        · simp
        all_goals exact fun _ => rfl
      · rw [setField_same Proc.parent, setFieldAt_same Proc.parent]
        all_goals exact fun _ => rfl
  | none =>
      refine ⟨setField procs1 q fun v => { v with cptr := (procs p).optr }, ?_, ?_, ?_, ?_, ?_,
        fun x => (sameBody_setField _ _ x (by exact fun _ => rfl)).trans (hbody1 x)⟩
      · change unlinkYounger procs1 p = _
        simp only [unlinkYounger, hp1, hy, hp, pure_eq_done]
      · rw [setField_same Proc.optr, setFieldAt_same Proc.optr]
        · rfl
        all_goals exact fun _ => rfl
      · rw [setField_same Proc.yptr, hyptr1, hy]
        all_goals exact fun _ => rfl
      · rw [setField_field Proc.cptr, setFieldAt_same Proc.cptr, if_pos rfl]
        all_goals exact fun _ => rfl
      · rw [setField_same Proc.parent, setFieldAt_same Proc.parent]
        all_goals exact fun _ => rfl

theorem adoptChild_spec (hne : initproc ≠ current) :
    (fun x => (adoptChild procs current initproc child x).optr) =
        Function.update (fun x => (procs x).optr) child (procs initproc).cptr ∧
      (fun x => (adoptChild procs current initproc child x).yptr) =
        setAt (Function.update (fun x => (procs x).yptr) child none) (procs initproc).cptr
          (some child) ∧
      (fun x => (adoptChild procs current initproc child x).cptr) =
        Function.update (Function.update (fun x => (procs x).cptr) current (procs child).optr)
          initproc (some child) ∧
      (fun x => (adoptChild procs current initproc child x).parent) =
        Function.update (fun x => (procs x).parent) child (some initproc) ∧
      ∀ x, SameBody (adoptChild procs current initproc child x) (procs x) := by
  let procs1 := setField procs current fun v => { v with cptr := (procs child).optr }
  let procs2 := setField procs1 child fun v => { v with yptr := none }
  have hcptr2 : (fun x => (procs2 x).cptr) =
      Function.update (fun x => (procs x).cptr) current (procs child).optr := by
    rw [setField_same Proc.cptr, setField_field Proc.cptr]
    all_goals exact fun _ => rfl
  have holder : (procs2 initproc).cptr = (procs initproc).cptr := by
    have h := congrFun hcptr2 initproc
    rwa [Function.update_of_ne hne] at h
  have hadopt : adoptChild procs current initproc child = setField (setField (setFieldAt
      (setField procs2 child fun v => { v with optr := (procs initproc).cptr })
        (procs initproc).cptr fun v => { v with yptr := some child }) child
          fun v => { v with parent := some initproc }) initproc
            fun v => { v with cptr := some child } := by
    rw [← holder]
    rfl
  rw [hadopt]
  refine ⟨?_, ?_, ?_, ?_, fun x => ?_⟩
  · rw [setField_same Proc.optr, setField_same Proc.optr,
      setFieldAt_same Proc.optr, setField_field Proc.optr,
      setField_same Proc.optr, setField_same Proc.optr]
    all_goals exact fun _ => rfl
  · rw [setField_same Proc.yptr, setField_same Proc.yptr,
      setFieldAt_yptr, setField_same Proc.yptr, setField_field Proc.yptr,
      setField_same Proc.yptr]
    all_goals exact fun _ => rfl
  · rw [setField_field Proc.cptr, setField_same Proc.cptr,
      setFieldAt_same Proc.cptr, setField_same Proc.cptr, hcptr2]
    all_goals exact fun _ => rfl
  · rw [setField_same Proc.parent, setField_field Proc.parent,
      setFieldAt_same Proc.parent, setField_same Proc.parent,
      setField_same Proc.parent, setField_same Proc.parent]
    all_goals exact fun _ => rfl
  · refine (sameBody_setField _ _ x ?_).trans ((sameBody_setField _ _ x ?_).trans
      ((sameBody_setFieldAt _ _ x ?_).trans ((sameBody_setField _ _ x ?_).trans
        ((sameBody_setField _ _ x ?_).trans (sameBody_setField _ _ x ?_)))))
    all_goals exact fun _ => rfl

/-! ## The lists of children -/

/-- `kids q` are the children of `q`, the youngest first. `before q` is what the `yptr` of the first
one holds: `NULL`, except in the middle of `do_exit`. -/
structure Tree (procs : Nat → Proc) (members : Nat → Prop) (before : Nat → Option Nat)
    (kids : Nat → List Nat) : Prop where
  linked : ∀ q, members q → Linked (fun x => (procs x).optr) (fun x => (procs x).yptr) (before q)
    (procs q).cptr (kids q)
  parent : ∀ q, ∀ p ∈ kids q, (procs p).parent = some q
  nodup : ∀ q, (kids q).Nodup
  owner : ∀ q, kids q ≠ [] → members q

variable {members members' : Nat → Prop} {before : Nat → Option Nat} {kids : Nat → List Nat}
  {rest : List Nat}

theorem Tree.unique (h : Tree procs members before kids) {q' : Nat} (hp : p ∈ kids q)
    (hp' : p ∈ kids q') : q = q' := by
  have h1 := h.parent q p hp
  rw [h.parent q' p hp'] at h1
  exact (Option.some.inj h1).symm

theorem Tree.congr (h : Tree procs members before kids) (hmem : ∀ q, members' q → members q)
    (howner : ∀ q, kids q ≠ [] → members' q)
    (hsame : ∀ x, (procs' x).parent = (procs x).parent ∧ (procs' x).cptr = (procs x).cptr ∧
      (procs' x).yptr = (procs x).yptr ∧ (procs' x).optr = (procs x).optr) :
    Tree procs' members' before kids := by
  refine ⟨fun q hq => ?_, fun q p hp => ?_, h.nodup, howner⟩
  · rw [(hsame q).2.1]
    exact (h.linked q (hmem q hq)).congr (fun x _ => (hsame x).2.2.2) fun x _ => (hsame x).2.2.1
  · rw [(hsame p).1]
    exact h.parent q p hp

/-- A process without children joins. -/
theorem Tree.fresh (h : Tree procs members before kids) (hp : ¬ members p) (hnew : ∀ x, p ∉ kids x)
    (hcptr : (procs' p).cptr = none) (hother : ∀ x, x ≠ p → procs' x = procs x) :
    Tree procs' (fun x => x = p ∨ members x) before kids := by
  have hne : ∀ x, ∀ y ∈ kids x, y ≠ p := by
    rintro x y hy rfl
    exact hnew x hy
  have hpkids : kids p = [] := by
    by_contra hc
    exact hp (h.owner p hc)
  refine ⟨fun q hq => ?_, fun q x hx => ?_, h.nodup, fun q hq => Or.inr (h.owner q hq)⟩
  · by_cases hqp : q = p
    · rw [hqp, hpkids, hcptr]
      rfl
    · rw [hother q hqp]
      refine (h.linked q (hq.resolve_left hqp)).congr (fun y hy => ?_) fun y hy => ?_
      · rw [hother y (hne q y hy)]
      · rw [hother y (hne q y hy)]
  · rw [hother x (hne q x hx)]
    exact h.parent q x hx

/-- A node of the list of one process is none of another. -/
theorem Tree.setAt_eq (h : Tree procs members before kids) {f : Nat → Option Nat}
    {node v : Option Nat} {q' x : Nat} (hne : q' ≠ q) (hnode : ∀ y ∈ node, y ∈ kids q)
    (hx : x ∈ kids q') : setAt f node v x = f x := by
  refine setAt_of_ne fun hc => ?_
  exact hne (h.unique hx (hnode x hc))

theorem Tree.link (h : Tree procs members (fun _ => none) kids) (hparent : (procs p).parent = some q)
    (hq : members q) (hp : ¬ members p) (hnew : ∀ x, p ∉ kids x) (hcptr : (procs p).cptr = none) :
    ∃ procs', linkChild procs p = done procs' ∧
      Tree procs' (fun x => x = p ∨ members x) (fun _ => none)
        (Function.update kids q (p :: kids q)) ∧
      (∀ x, (procs' x).parent = (procs x).parent) ∧ ∀ x, SameBody (procs' x) (procs x) := by
  rcases linkChild_spec hparent with ⟨procs', hlink, hoptr, hyptr, hcptr', hparent', hbody⟩
  have hqp : q ≠ p := fun hc => hp (hc ▸ hq)
  have hpkids : kids p = [] := by
    by_contra hc
    exact hp (h.owner p hc)
  have hcq := congrFun hcptr'
  have hpar := congrFun hparent'
  refine ⟨procs', hlink, ⟨fun x hx => ?_, fun x y hy => ?_, fun x => ?_, fun x hx => ?_⟩, hpar, hbody⟩
  · rw [hcq, hoptr, hyptr]
    by_cases hxq : x = q
    · subst hxq
      rw [Function.update_self, Function.update_self]
      exact (h.linked x hq).push (h.nodup x) (hnew x)
    · rw [Function.update_of_ne hxq, Function.update_of_ne hxq]
      rcases hx with rfl | hx
      · rw [hpkids, hcptr]
        rfl
      · have hne : ∀ y ∈ kids x, y ≠ p := fun y hy hc => hnew x (hc ▸ hy)
        refine (h.linked x hx).congr (fun y hy => Function.update_of_ne (hne y hy) _ _) fun y hy => ?_
        rw [h.setAt_eq hxq ?_ hy, Function.update_of_ne (hne y hy)]
        intro z hz
        rw [(h.linked q hq).head_eq] at hz
        exact List.mem_of_mem_head? hz
  · rw [hpar]
    by_cases hxq : x = q
    · subst hxq
      rw [Function.update_self] at hy
      rcases List.mem_cons.1 hy with rfl | hy
      · exact hparent
      · exact h.parent x y hy
    · rw [Function.update_of_ne hxq] at hy
      exact h.parent x y hy
  · by_cases hxq : x = q
    · subst hxq
      rw [Function.update_self]
      exact List.nodup_cons.2 ⟨hnew x, h.nodup x⟩
    · rw [Function.update_of_ne hxq]
      exact h.nodup x
  · by_cases hxq : x = q
    · exact Or.inr (hxq ▸ hq)
    · rw [Function.update_of_ne hxq] at hx
      exact Or.inr (h.owner x hx)

theorem Tree.unlink (h : Tree procs members (fun _ => none) kids) (hp : p ∈ kids q) :
    ∃ procs', unlinkChild procs p = done procs' ∧
      Tree procs' members (fun _ => none) (Function.update kids q ((kids q).erase p)) ∧
      (∀ x, (procs' x).parent = (procs x).parent) ∧ ∀ x, SameBody (procs' x) (procs x) := by
  have hq : members q := h.owner q (List.ne_nil_of_mem hp)
  rcases List.append_of_mem hp with ⟨xs, ys, hsplit⟩
  have hnd := h.nodup q
  rw [hsplit] at hnd
  have hlinked := h.linked q hq
  rw [hsplit] at hlinked
  rcases hlinked.mem with ⟨hnext, hprev⟩
  rw [Option.or_none] at hprev
  have hperm : List.Perm (p :: (xs ++ ys)) (xs ++ p :: ys) := List.perm_middle.symm
  have hpnot : p ∉ xs ++ ys := (List.nodup_cons.1 (hperm.nodup_iff.2 hnd)).1
  have hself : (procs p).optr ≠ some p := by
    intro hc
    rw [hnext] at hc
    exact hpnot (List.mem_append_right _ (List.mem_of_mem_head? hc))
  rcases unlinkChild_spec (h.parent q p hp) hself with
    ⟨procs', hunlink, hoptr, hyptr, hcptr, hparent, hbody⟩
  have herase : (kids q).erase p = xs ++ ys := by
    have hpx : p ∉ xs := fun hc => hpnot (List.mem_append_left _ hc)
    rw [hsplit, List.erase_append_right _ hpx, List.erase_cons_head]
  have hpar := congrFun hparent
  -- The head moves on if the first child is taken out.
  have hcq : ∀ x, (procs' x).cptr =
      if x = q ∧ xs = [] then (procs p).optr else (procs x).cptr := by
    intro x
    have hcx := congrFun hcptr x
    rw [hprev] at hcx
    by_cases hxs : xs = []
    · rw [if_pos (by simp [hxs])] at hcx
      by_cases hxq : x = q
      · subst hxq
        rw [Function.update_self] at hcx
        rw [if_pos ⟨rfl, hxs⟩, hcx]
      · rw [Function.update_of_ne hxq] at hcx
        rw [if_neg (fun hc => hxq hc.1), hcx]
    · rw [if_neg (by simpa using hxs)] at hcx
      rw [if_neg (fun hc => hxs hc.2), hcx]
  refine ⟨procs', hunlink, ⟨fun x hx => ?_, fun x y hy => ?_, fun x => ?_, fun x hx => ?_⟩, hpar,
    hbody⟩
  · rw [hcq, hoptr, hyptr, hnext, hprev]
    by_cases hxq : x = q
    · subst hxq
      have hrem := hlinked.remove hnd
      rw [hnext, hprev] at hrem
      rw [Function.update_self, herase]
      by_cases hxs : xs = []
      · rw [if_pos ⟨rfl, hxs⟩]
        rwa [if_pos hxs] at hrem
      · rw [if_neg (fun hc => hxs hc.2)]
        rwa [if_neg hxs] at hrem
    · rw [if_neg (fun hc => hxq hc.1), Function.update_of_ne hxq]
      refine (h.linked x hx).congr (fun y hy => ?_) fun y hy => ?_
      · refine h.setAt_eq hxq (fun z hz => ?_) hy
        rw [hsplit]
        exact List.mem_append_left _ (List.mem_of_mem_getLast? hz)
      · refine h.setAt_eq hxq (fun z hz => ?_) hy
        rw [hsplit]
        exact List.mem_append_right _ (List.mem_cons_of_mem _ (List.mem_of_mem_head? hz))
  · rw [hpar]
    refine h.parent x y ?_
    by_cases hxq : x = q
    · subst hxq
      rw [Function.update_self] at hy
      exact List.mem_of_mem_erase hy
    · rwa [Function.update_of_ne hxq] at hy
  · by_cases hxq : x = q
    · subst hxq
      rw [Function.update_self]
      exact (h.nodup x).erase _
    · rw [Function.update_of_ne hxq]
      exact h.nodup x
  · by_cases hxq : x = q
    · exact hxq ▸ hq
    · rw [Function.update_of_ne hxq] at hx
      exact h.owner x hx

theorem Tree.adopt (h : Tree procs members before kids) (hkids : kids current = child :: rest)
    (hne : initproc ≠ current) (hbefore : before initproc = none) (hinit : members initproc) :
    Tree (adoptChild procs current initproc child) members
        (Function.update before current (some child))
        (Function.update (Function.update kids current rest) initproc (child :: kids initproc)) ∧
      (∀ x, (adoptChild procs current initproc child x).parent =
        if x = child then some initproc else (procs x).parent) ∧
      ∀ x, SameBody (adoptChild procs current initproc child x) (procs x) := by
  rcases @adoptChild_spec procs current initproc child hne with
    ⟨hoptr, hyptr, hcptr, hparent, hbody⟩
  have hcur : members current := h.owner current (by simp [hkids])
  have hchild : child ∈ kids current := by simp [hkids]
  have hcnot : ∀ q, q ≠ current → child ∉ kids q := fun q hq hc => hq (h.unique hc hchild)
  have hnd := h.nodup current
  rw [hkids, List.nodup_cons] at hnd
  have hrest : ∀ y ∈ rest, y ≠ child := by
    rintro y hy rfl
    exact hnd.1 hy
  have hothers : ∀ q, q ≠ current → ∀ y ∈ kids q, y ≠ child := by
    rintro q hq y hy rfl
    exact hcnot q hq hy
  have hlinked := h.linked current hcur
  rw [hkids] at hlinked
  have hpar : ∀ x, (adoptChild procs current initproc child x).parent =
      if x = child then some initproc else (procs x).parent := by
    intro x
    rw [congrFun hparent x, Function.update_apply]
  have hcq := congrFun hcptr
  -- The first child of `initproc` is in no other list.
  have hfirst : ∀ y ∈ (procs initproc).cptr, y ∈ kids initproc := by
    intro y hy
    rw [(h.linked initproc hinit).head_eq] at hy
    exact List.mem_of_mem_head? hy
  refine ⟨⟨fun x hx => ?_, fun x y hy => ?_, fun x => ?_, fun x hx => ?_⟩, hpar, hbody⟩
  · rw [hcq, hoptr, hyptr]
    by_cases hxi : x = initproc
    · subst hxi
      rw [Function.update_self, Function.update_self, Function.update_of_ne hne, hbefore]
      have hold := h.linked x hinit
      rw [hbefore] at hold
      exact hold.push (h.nodup x) (hcnot x hne)
    · rw [Function.update_of_ne hxi, Function.update_of_ne hxi]
      by_cases hxc : x = current
      · subst hxc
        rw [Function.update_self, Function.update_self, Function.update_self]
        refine hlinked.2.2.congr (fun y hy => ?_) fun y hy => ?_
        · exact Function.update_of_ne (hrest y hy) _ _
        · have hyk : y ∈ kids x := by simp [hkids, hy]
          rw [h.setAt_eq hne.symm hfirst hyk]
          exact Function.update_of_ne (hrest y hy) _ _
      · rw [Function.update_of_ne hxc, Function.update_of_ne hxc, Function.update_of_ne hxc]
        refine (h.linked x hx).congr (fun y hy => ?_) fun y hy => ?_
        · exact Function.update_of_ne (hothers x hxc y hy) _ _
        · rw [h.setAt_eq hxi hfirst hy]
          exact Function.update_of_ne (hothers x hxc y hy) _ _
  · rw [hpar]
    by_cases hxi : x = initproc
    · subst hxi
      rw [Function.update_self] at hy
      rcases List.mem_cons.1 hy with rfl | hy
      · rw [if_pos rfl]
      · rw [if_neg (hothers x hne y hy)]
        exact h.parent x y hy
    · rw [Function.update_of_ne hxi] at hy
      by_cases hxc : x = current
      · subst hxc
        rw [Function.update_self] at hy
        rw [if_neg (hrest y hy)]
        exact h.parent x y (by simp [hkids, hy])
      · rw [Function.update_of_ne hxc] at hy
        rw [if_neg (hothers x hxc y hy)]
        exact h.parent x y hy
  · by_cases hxi : x = initproc
    · subst hxi
      rw [Function.update_self]
      exact List.nodup_cons.2 ⟨hcnot x hne, h.nodup x⟩
    · rw [Function.update_of_ne hxi]
      by_cases hxc : x = current
      · subst hxc
        rw [Function.update_self]
        exact hnd.2
      · rw [Function.update_of_ne hxc]
        exact h.nodup x
  · by_cases hxi : x = initproc
    · exact hxi ▸ hinit
    · rw [Function.update_of_ne hxi] at hx
      by_cases hxc : x = current
      · exact hxc ▸ hcur
      · rw [Function.update_of_ne hxc] at hx
        exact h.owner x hx

end TriOS
