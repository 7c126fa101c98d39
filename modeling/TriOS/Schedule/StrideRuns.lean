import TriOS.Library.Serial
import TriOS.Schedule.SchedRuns

/-!
# Runs of the stride scheduler

Strides are counters that wrap. The processes that can run keep their strides in one window as long
as every process that becomes runnable joins it inside the window; the comparison is then an order,
and the run pool is a heap for it.
-/

namespace TriOS

open Outcome Transition

/-- What the stride scheduler promises about its queue: the strides lie in a window, the comparison
function is a total preorder, and `stride_pick_next` returns a minimal process. -/
structure StrideSound (rq : RunQueue) (info : Nat → RunInfo) : Prop where
  window : ∀ p ∈ rq.pool.elements, ∀ q ∈ rq.pool.elements,
    |signedDiff (info p).stride (info q).stride| ≤ bigStride.toNat
  total : ∀ p ∈ rq.pool.elements, ∀ q ∈ rq.pool.elements,
    procStrideCompF info p q ≤ 0 ∨ procStrideCompF info q p ≤ 0
  trans : ∀ p ∈ rq.pool.elements, ∀ q ∈ rq.pool.elements, ∀ r ∈ rq.pool.elements,
    procStrideCompF info p q ≤ 0 → procStrideCompF info q r ≤ 0 → procStrideCompF info p r ≤ 0
  empty : stridePickNext rq info = done none ↔ rq.pool.elements = 0
  minimal : ∀ next run, stridePickNext rq info = done (some (next, run)) →
    next ∈ rq.pool.elements ∧ ∀ q ∈ rq.pool.elements, procStrideCompF info next q ≤ 0

/-- The stride and the priority of a process that becomes runnable: it joins the window of those that
can run, and it does not make `stride_pick_next` divide by 0. -/
def StrideOk (s : SchedSys) : SchedOp → Prop
  | SchedOp.wakeup p =>
      (s.machine.proc p).state ≠ ProcState.runnable → p ≠ s.machine.idleproc →
        (s.machine.runInfo p).priority ≠ 0 ∧ ∀ q ∈ s.candidates,
          |signedDiff (s.machine.runInfo p).stride (s.machine.runInfo q).stride| ≤ bigStride.toNat
  | _ => True

/-- The stride of a process as a counter. -/
def strideOf (m : Machine RunQueue) (p : Nat) : BitVec 32 :=
  (m.runInfo p).stride.toBitVec

/-- `p` is not after `q`. -/
def Machine.Before (m : Machine RunQueue) (p q : Nat) : Prop :=
  Serial.diff (strideOf m p) (strideOf m q) ≤ 0

/-- The strides of two processes are in one window. -/
def Machine.Near (m : Machine RunQueue) (p q : Nat) : Prop :=
  Serial.Near bigStride.toNat (strideOf m p) (strideOf m q)

/-- The invariant of the stride scheduler. -/
structure StrideInv (s : SchedSys) : Prop where
  sched : SchedInv s
  window : ∀ p ∈ s.candidates, ∀ q ∈ s.candidates, s.machine.Near p q
  priority : ∀ p ∈ s.candidates, (s.machine.runInfo p).priority ≠ 0
  ordered : SkewHeap.Ordered s.machine.Before s.machine.rq.pool

variable {s t : SchedSys} {op : SchedOp} {m m' : Machine RunQueue} {p q : Nat} {c : Multiset Nat}

theorem bigStride_small : 4 * (bigStride.toNat : Int) < 2 ^ 32 := by
  decide

theorem signedDiff_eq (m : Machine RunQueue) (p q : Nat) :
    signedDiff (m.runInfo p).stride (m.runInfo q).stride =
      Serial.diff (strideOf m p) (strideOf m q) := by
  simp [signedDiff, Serial.diff, strideOf]

theorem near_iff : m.Near p q ↔
    |signedDiff (m.runInfo p).stride (m.runInfo q).stride| ≤ bigStride.toNat := by
  rw [signedDiff_eq]
  rfl

theorem procStrideCompF_nonpos : procStrideCompF m.runInfo p q ≤ 0 ↔ m.Before p q := by
  unfold procStrideCompF Machine.Before
  rw [← signedDiff_eq]
  by_cases hpos : signedDiff (m.runInfo p).stride (m.runInfo q).stride > 0
  · simp only [hpos, if_true]
    omega
  · by_cases hzero : signedDiff (m.runInfo p).stride (m.runInfo q).stride = 0
    · simp [hzero]
    · simp only [hpos, hzero, if_false]
      omega

/-- In a window the comparison function decides the order. -/
theorem compares_of_near (hnear : ∀ p ∈ c, ∀ q ∈ c, m.Near p q) :
    SkewHeap.Compares (procStrideCompF m.runInfo) m.Before c := by
  refine ⟨fun x hx y hy hc => ?_, fun x hx y hy hc => ?_, fun x hx y hy z hz => ?_⟩
  · refine procStrideCompF_nonpos.1 ?_
    omega
  · have hge : 0 ≤ Serial.diff (strideOf m x) (strideOf m y) := by
      rw [← signedDiff_eq]
      unfold procStrideCompF at hc
      by_contra hneg
      have hpos : ¬ signedDiff (m.runInfo x).stride (m.runInfo y).stride > 0 := by omega
      have hzero : ¬ signedDiff (m.runInfo x).stride (m.runInfo y).stride = 0 := by omega
      simp only [hpos, hzero, if_false] at hc
      exact hc rfl
    unfold Machine.Before
    rw [(hnear x hx y hy).diff_neg bigStride_small]
    omega
  · exact (hnear x hx y hy).le_trans bigStride_small (hnear y hy z hz)

theorem StrideInv.mem_candidates (h : StrideInv s) (hp : p ∈ s.machine.rq.pool.elements) :
    p ∈ s.candidates := by
  rw [h.sched.membership.pool, Finset.mem_val, SchedSys.mem_ready] at hp
  exact SchedSys.mem_candidates.2 ⟨hp.1, hp.2.1, hp.2.2.1⟩

theorem StrideInv.sound (h : StrideInv s) : StrideSound s.machine.rq s.machine.runInfo := by
  refine ⟨fun p hp q hq => ?_, fun p hp q hq => ?_, fun p hp q hq r hr hpq hqr => ?_, ?_,
    fun next run hpick => ?_⟩
  · exact near_iff.1 (h.window p (h.mem_candidates hp) q (h.mem_candidates hq))
  · rw [procStrideCompF_nonpos, procStrideCompF_nonpos]
    exact (h.window p (h.mem_candidates hp) q (h.mem_candidates hq)).total bigStride_small
  · rw [procStrideCompF_nonpos] at hpq hqr ⊢
    exact (h.window p (h.mem_candidates hp) q (h.mem_candidates hq)).le_trans bigStride_small
      (h.window q (h.mem_candidates hq) r (h.mem_candidates hr)) hpq hqr
  · rw [← SkewHeap.root_eq_none]
    unfold stridePickNext
    cases SkewHeap.root s.machine.rq.pool <;> simp
  · unfold stridePickNext at hpick
    cases hroot : SkewHeap.root s.machine.rq.pool with
    | none => simp [hroot] at hpick
    | some r =>
        rw [hroot] at hpick
        have hr : r = next := congrArg Prod.fst (Option.some.inj (done.inj hpick))
        subst hr
        refine ⟨SkewHeap.root_mem hroot, fun q hq => ?_⟩
        rw [procStrideCompF_nonpos]
        rcases h.ordered.root_le hroot q hq with rfl | hle
        · exact le_of_eq Serial.diff_self
        · exact hle

/-- An action that makes no process runnable and changes no stride. -/
theorem StrideInv.frame (h : StrideInv s) (hsched : SchedInv t)
    (hpool : t.machine.rq.pool = s.machine.rq.pool)
    (hsub : ∀ p ∈ t.candidates, p ∈ s.candidates)
    (hstride : ∀ p ∈ s.candidates, strideOf t.machine p = strideOf s.machine p)
    (hpriority : ∀ p ∈ t.candidates, (s.machine.runInfo p).priority ≠ 0 →
      (t.machine.runInfo p).priority ≠ 0) : StrideInv t := by
  refine ⟨hsched, fun p hp q hq => ?_, fun p hp => ?_, ?_⟩
  · unfold Machine.Near
    rw [hstride p (hsub p hp), hstride q (hsub q hq)]
    exact h.window p (hsub p hp) q (hsub q hq)
  · exact hpriority p hp (h.priority p (hsub p hp))
  · rw [hpool]
    refine h.ordered.congr fun x hx y hy hxy => ?_
    unfold Machine.Before
    rw [hstride x (h.mem_candidates hx), hstride y (h.mem_candidates hy)]
    exact hxy

/-- The strides after a change of run fields that leaves strides alone. -/
theorem strideOf_setRun {r : RunInfo} (hr : r.stride = (m.runInfo p).stride) (q : Nat) :
    strideOf (m.setRun p r) q = strideOf m q := by
  unfold strideOf
  by_cases hq : q = p
  · subst hq
    simp [Machine.runInfo, Machine.setRun, Machine.setProc, hr]
  · simp [Machine.runInfo, Machine.setRun, Machine.setProc, hq]

/-- An action of the scheduling class on the run fields of the current process. -/
theorem StrideInv.setRun (h : StrideInv s) {r : RunInfo}
    (hsched : SchedInv ⟨s.machine.setRun p r, s.alive⟩)
    (hr : r.stride = (s.machine.runInfo p).stride)
    (hpriority : (s.machine.runInfo p).priority ≠ 0 → r.priority ≠ 0) :
    StrideInv ⟨s.machine.setRun p r, s.alive⟩ := by
  have hsame := sameProcs_setRun s.machine p r
  refine h.frame hsched rfl (fun q hq => ?_) (fun q _ => strideOf_setRun hr q) fun q _ hq => ?_
  · rw [SchedSys.mem_candidates] at hq ⊢
    change q ∈ s.alive ∧ ((s.machine.setRun p r).proc q).state = _ ∧ _ at hq
    rwa [hsame.state] at hq
  · by_cases hqp : q = p
    · subst hqp
      simpa [Machine.runInfo, Machine.setRun, Machine.setProc] using hpriority hq
    · simpa [Machine.runInfo, Machine.setRun, Machine.setProc, hqp] using hq

/-! ## wakeup_proc -/

/-- The run fields after an enqueue: only a time slice can change. -/
theorem runInfo_enqueue (m : Machine RunQueue) (p q : Nat) :
    strideOf (schedClassEnqueue defaultSchedClass m p) q = strideOf m q ∧
      ((schedClassEnqueue defaultSchedClass m p).runInfo q).priority =
        (m.runInfo q).priority := by
  by_cases hidle : p = m.idleproc
  · rw [enqueue_idle m hidle]
    exact ⟨rfl, rfl⟩
  · have hm : schedClassEnqueue defaultSchedClass m p =
        { m.setRun p (strideEnqueue m.rq m.runInfo p).2 with
          rq := (strideEnqueue m.rq m.runInfo p).1 } := by
      unfold schedClassEnqueue
      rw [if_pos hidle]
      rfl
    have hrun : (strideEnqueue m.rq m.runInfo p).2.stride = (m.runInfo p).stride ∧
        (strideEnqueue m.rq m.runInfo p).2.priority = (m.runInfo p).priority := by
      unfold strideEnqueue
      by_cases hslice : (m.runInfo p).timeSlice = 0 ∨ (m.runInfo p).timeSlice > m.rq.maxTimeSlice
      · simp [hslice]
      · simp [hslice]
    rw [hm]
    refine ⟨strideOf_setRun hrun.1 q, ?_⟩
    change ((m.setRun p _).runInfo q).priority = _
    by_cases hqp : q = p
    · subst hqp
      simpa [Machine.runInfo, Machine.setRun, Machine.setProc] using hrun.2
    · simp [Machine.runInfo, Machine.setRun, Machine.setProc, hqp]

/-- A heap of processes in a window stays a heap when a process of the window is enqueued. -/
theorem ordered_enqueue (hidle : p ≠ m.idleproc) (hord : SkewHeap.Ordered m.Before m.rq.pool)
    (hnear : ∀ x ∈ p ::ₘ m.rq.pool.elements, ∀ y ∈ p ::ₘ m.rq.pool.elements, m.Near x y) :
    SkewHeap.Ordered (schedClassEnqueue defaultSchedClass m p).Before
      (schedClassEnqueue defaultSchedClass m p).rq.pool := by
  rw [(enqueue_rq m hidle).1]
  refine (hord.insert (compares_of_near hnear)).congr fun x _ y _ hxy => ?_
  unfold Machine.Before
  rw [(runInfo_enqueue m p x).1, (runInfo_enqueue m p y).1]
  exact hxy

/-- A process that is near all others of a window joins it. -/
theorem near_of_join {S : Nat → Prop} (hwindow : ∀ x, S x → ∀ y, S y → m.Near x y)
    (hjoin : ∀ x, S x → m.Near p x) {x y : Nat} (hx : S x ∨ x = p) (hy : S y ∨ y = p) :
    m.Near x y := by
  rcases hx with hx | rfl
  · rcases hy with hy | rfl
    · exact hwindow x hx y hy
    · exact (hjoin x hx).symm bigStride_small
  · rcases hy with hy | rfl
    · exact hjoin y hy
    · exact Serial.Near.refl

theorem StrideInv.wakeup (h : StrideInv s) (hok : StrideOk s (SchedOp.wakeup p))
    (hp : p ∈ s.alive) (hpid : (s.machine.proc p).pid ≠ -1)
    (hwake : wakeupProc defaultSchedClass s.machine p = done m') : StrideInv ⟨m', s.alive⟩ := by
  have hsched := h.sched.wakeup hp hpid hwake
  rcases (wakeupProc_inv hwake).2 with ⟨_, rfl⟩ | ⟨hrun, m1, hm1, hm'⟩
  · exact h
  · -- Waking the process changes no stride and no priority.
    have hinfo1 : m1.runInfo = s.machine.runInfo := by
      funext q
      rw [hm1]
      by_cases hq : q = p
      · simp [Machine.runInfo, Machine.setProc, hq]
      · simp [Machine.runInfo, Machine.setProc, hq]
    have hstride : ∀ q, strideOf m' q = strideOf s.machine q ∧
        (m'.runInfo q).priority = (s.machine.runInfo q).priority := by
      intro q
      have h1 : strideOf m1 q = strideOf s.machine q := by
        unfold strideOf
        rw [hinfo1]
      rcases hm' with ⟨_, hm2⟩ | ⟨_, hm2⟩
      · have := runInfo_enqueue m1 p q
        rw [h1, hinfo1] at this
        rw [hm2]
        exact this
      · rw [hm2]
        exact ⟨h1, by rw [hinfo1]⟩
    have hcand : ∀ q, q ∈ (SchedSys.mk m' s.alive).candidates →
        q ∈ s.candidates ∨ (q = p ∧ p ≠ s.machine.idleproc) := by
      intro q hq
      rcases SchedSys.mem_candidates.1 hq with ⟨halive, hstate, hidle⟩
      have hsame : SameProcs m1 m' := by
        rcases hm' with ⟨_, hm2⟩ | ⟨_, hm2⟩
        · rw [hm2]
          exact sameProcs_enqueue m1 p
        · rw [hm2]
          exact SameProcs.refl m1
      change q ≠ m'.idleproc at hidle
      change (m'.proc q).state = _ at hstate
      rw [hsame.idleproc, hm1] at hidle
      rw [hsame.state, hm1] at hstate
      by_cases hqp : q = p
      · exact Or.inr ⟨hqp, hqp ▸ hidle⟩
      · left
        rw [SchedSys.mem_candidates]
        have hproc : (s.machine.setProc p { s.machine.proc p with
            state := ProcState.runnable, waitState := 0 }).proc q = s.machine.proc q :=
          Function.update_of_ne hqp _ _
        rw [hproc] at hstate
        exact ⟨halive, hstate, hidle⟩
    have hnear : p ≠ s.machine.idleproc → ∀ x y, (x ∈ s.candidates ∨ x = p) →
        (y ∈ s.candidates ∨ y = p) → s.machine.Near x y := fun hidle x y =>
      near_of_join (S := (· ∈ s.candidates)) h.window fun q hq =>
        near_iff.2 ((hok hrun hidle).2 q hq)
    refine ⟨hsched, fun x hx y hy => ?_, fun x hx => ?_, ?_⟩
    · have hxy : s.machine.Near x y := by
        rcases hcand x hx with hx | ⟨rfl, hidle⟩
        · rcases hcand y hy with hy | ⟨rfl, hidle⟩
          · exact h.window x hx y hy
          · exact hnear hidle x y (Or.inl hx) (Or.inr rfl)
        · exact hnear hidle x y (Or.inr rfl) ((hcand y hy).imp_right And.left)
      unfold Machine.Near at hxy ⊢
      rw [(hstride x).1, (hstride y).1]
      exact hxy
    · change (m'.runInfo x).priority ≠ 0
      rw [(hstride x).2]
      rcases hcand x hx with hx | ⟨rfl, hidle⟩
      · exact h.priority x hx
      · exact (hok hrun hidle).1
    · have hrq1 : m1.rq = s.machine.rq := by
        rw [hm1]
        rfl
      have hidle1 : m1.idleproc = s.machine.idleproc := by
        rw [hm1]
        rfl
      have hbefore : m1.Before = s.machine.Before := by
        funext x y
        unfold Machine.Before strideOf
        rw [hinfo1]
      have hord : SkewHeap.Ordered m1.Before m1.rq.pool := by
        rw [hbefore, hrq1]
        exact h.ordered
      rcases hm' with ⟨_, rfl⟩ | ⟨_, rfl⟩
      · by_cases hidle : p = m1.idleproc
        · change SkewHeap.Ordered (schedClassEnqueue defaultSchedClass m1 p).Before
            (schedClassEnqueue defaultSchedClass m1 p).rq.pool
          rw [enqueue_idle m1 hidle]
          exact hord
        · have hpool := (enqueue_rq m1 hidle).1
          refine ordered_enqueue hidle hord fun x hx y hy => ?_
          rw [hrq1] at hx hy
          have hin : ∀ z ∈ p ::ₘ s.machine.rq.pool.elements, z ∈ s.candidates ∨ z = p := by
            intro z hz
            rcases Multiset.mem_cons.1 hz with rfl | hz
            · exact Or.inr rfl
            · exact Or.inl (h.mem_candidates hz)
          have hnotidle : p ≠ s.machine.idleproc := fun hc => hidle (hc.trans hidle1.symm)
          have hxy := hnear hnotidle x y (hin x hx) (hin y hy)
          unfold Machine.Near strideOf at hxy ⊢
          rw [hinfo1]
          exact hxy
      · exact hord

/-! ## schedule -/

theorem runInfo_clearResched (m : Machine RunQueue) (q : Nat) :
    strideOf (clearResched m) q = strideOf m q ∧
      ((clearResched m).runInfo q).priority = (m.runInfo q).priority := by
  by_cases hq : q = m.current
  · simp [strideOf, clearResched, Machine.runInfo, Machine.setRun, Machine.setProc, hq]
  · simp [strideOf, clearResched, Machine.runInfo, Machine.setRun, Machine.setProc, hq]

theorem runInfo_requeue (m : Machine RunQueue) (q : Nat) :
    strideOf (requeue m) q = strideOf m q ∧
      ((requeue m).runInfo q).priority = (m.runInfo q).priority := by
  have hclear := runInfo_clearResched m q
  unfold requeue
  by_cases hrun : ((clearResched m).proc m.current).state = ProcState.runnable
  · rw [if_pos hrun, (runInfo_enqueue _ _ q).1, (runInfo_enqueue _ _ q).2]
    exact hclear
  · rw [if_neg hrun]
    exact hclear

/-- The pool that `schedule` picks from is a heap. -/
theorem StrideInv.ordered_requeue (h : StrideInv s) :
    SkewHeap.Ordered s.machine.Before (requeue s.machine).rq.pool := by
  have hclear : ∀ q, strideOf (clearResched s.machine) q = strideOf s.machine q := fun q =>
    (runInfo_clearResched s.machine q).1
  have hbefore : (clearResched s.machine).Before = s.machine.Before := by
    funext x y
    unfold Machine.Before
    rw [hclear, hclear]
  unfold requeue
  by_cases hrun : ((clearResched s.machine).proc s.machine.current).state = ProcState.runnable
  · rw [if_pos hrun]
    by_cases hidle : s.machine.current = s.machine.idleproc
    · rw [enqueue_idle (clearResched s.machine) hidle]
      exact h.ordered
    · have hstate := (sameProcs_setRun s.machine s.machine.current
        { s.machine.runInfo s.machine.current with needResched := false }).state s.machine.current
      have hcur : s.machine.current ∈ s.candidates :=
        SchedSys.mem_candidates.2 ⟨h.sched.current, hstate.symm.trans hrun, hidle⟩
      have hin : ∀ x ∈ s.machine.current ::ₘ s.machine.rq.pool.elements, x ∈ s.candidates := by
        intro x hx
        rcases Multiset.mem_cons.1 hx with rfl | hx
        · exact hcur
        · exact h.mem_candidates hx
      have hord := ordered_enqueue (p := s.machine.current) (m := clearResched s.machine) hidle
        (by rw [hbefore]; exact h.ordered) fun x hx y hy => by
          unfold Machine.Near
          rw [hclear, hclear]
          exact h.window x (hin x hx) y (hin y hy)
      refine hord.congr fun x _ y _ hxy => ?_
      unfold Machine.Before at hxy ⊢
      rwa [(runInfo_enqueue _ _ x).1, (runInfo_enqueue _ _ y).1, hclear, hclear] at hxy
  · rw [if_neg hrun]
    exact h.ordered

theorem stridePass_le {priority : UInt32} (h : priority ≠ 0) :
    (stridePass priority).toBitVec.toNat ≤ bigStride.toNat := by
  unfold stridePass
  rw [if_neg h]
  change (bigStride / priority).toNat ≤ _
  rw [UInt32.toNat_div]
  exact Nat.div_le_self _ _

theorem StrideInv.schedule (h : StrideInv s)
    (hs : TriOS.schedule defaultSchedClass s.machine = done m') : StrideInv ⟨m', s.alive⟩ := by
  have hsched := h.sched.schedule hs
  have hre := sameProcs_requeue s.machine
  rcases h.sched.schedule_cases hs with ⟨hempty, rfl⟩ | ⟨next, hnext, hroot, rfl⟩
  · -- Nobody can run: every part of the invariant is about nobody.
    have hcand : ∀ p, p ∉ (SchedSys.mk { requeue s.machine with
        current := s.machine.idleproc } s.alive).candidates := by
      intro p hp
      have hp' := SchedSys.mem_candidates.1 hp
      change p ∈ s.alive ∧ ((requeue s.machine).proc p).state = _ ∧
        p ≠ (requeue s.machine).idleproc at hp'
      rw [hre.state, hre.idleproc] at hp'
      have := SchedSys.mem_candidates.2 hp'
      rw [hempty] at this
      cases this
    refine ⟨hsched, fun p hp => absurd hp (hcand p), fun p hp => absurd hp (hcand p), ?_⟩
    refine h.ordered_requeue.congr fun x hx => ?_
    rw [h.sched.requeue.1, hempty] at hx
    cases hx
  · have hpk := hre.trans (sameProcs_picked (requeue s.machine) next)
    -- Only the stride of the picked process changes.
    have hself : strideOf (picked (requeue s.machine) next) next =
        strideOf s.machine next + (stridePass (s.machine.runInfo next).priority).toBitVec := by
      rw [← (runInfo_requeue s.machine next).1, ← (runInfo_requeue s.machine next).2]
      simp [strideOf, picked, Machine.runInfo, Machine.setRun, Machine.setProc]
    have hother : ∀ q, q ≠ next →
        strideOf (picked (requeue s.machine) next) q = strideOf s.machine q := by
      intro q hq
      rw [← (runInfo_requeue s.machine q).1]
      simp [strideOf, picked, Machine.runInfo, Machine.setRun, Machine.setProc, hq]
    have hpriority : ∀ q, ((picked (requeue s.machine) next).runInfo q).priority =
        (s.machine.runInfo q).priority := by
      intro q
      rw [← (runInfo_requeue s.machine q).2]
      by_cases hq : q = next
      · simp [picked, Machine.runInfo, Machine.setRun, Machine.setProc, hq]
      · simp [picked, Machine.runInfo, Machine.setRun, Machine.setProc, hq]
    have hcand : ∀ p, p ∈ (SchedSys.mk { picked (requeue s.machine) next with
        current := next } s.alive).candidates ↔ p ∈ s.candidates := by
      intro p
      rw [SchedSys.mem_candidates, SchedSys.mem_candidates]
      change p ∈ s.alive ∧ ((picked (requeue s.machine) next).proc p).state = _ ∧
        p ≠ (picked (requeue s.machine) next).idleproc ↔ _
      rw [hpk.state, hpk.idleproc]
    have hpass := stridePass_le (h.priority next hnext)
    -- The picked process is minimal, so it may be advanced.
    have hadvance : ∀ q ∈ s.candidates,
        Serial.Near bigStride.toNat (strideOf (picked (requeue s.machine) next) next)
          (strideOf s.machine q) := by
      intro q hq
      rw [hself]
      have hmem : q ∈ (requeue s.machine).rq.pool.elements := by
        rw [h.sched.requeue.1]
        exact hq
      refine (h.window next hnext q hq).advance bigStride_small ?_ hpass
      rcases h.ordered_requeue.root_le hroot q hmem with rfl | hle
      · exact le_of_eq Serial.diff_self
      · exact hle
    have hnear : ∀ p ∈ s.candidates, ∀ q ∈ s.candidates,
        (picked (requeue s.machine) next).Near p q := by
      intro p hp q hq
      unfold Machine.Near
      by_cases hpn : p = next
      · by_cases hqn : q = next
        · rw [hpn, hqn]
          exact Serial.Near.refl
        · rw [hpn, hother q hqn]
          exact hadvance q hq
      · by_cases hqn : q = next
        · rw [hqn, hother p hpn]
          exact (hadvance p hp).symm bigStride_small
        · rw [hother p hpn, hother q hqn]
          exact h.window p hp q hq
    refine ⟨hsched, fun p hp q hq => hnear p ((hcand p).1 hp) q ((hcand q).1 hq),
      fun p hp => ?_, ?_⟩
    · change ((picked (requeue s.machine) next).runInfo p).priority ≠ 0
      rw [hpriority]
      exact h.priority p ((hcand p).1 hp)
    · have hnodup : (requeue s.machine).rq.pool.elements.Nodup := by
        rw [h.sched.requeue.1]
        exact s.candidates.nodup
      have hrest : ∀ x ∈ ((requeue s.machine).rq.pool.elements).erase next,
          x ∈ s.candidates ∧ x ≠ next := by
        intro x hx
        rw [hnodup.mem_erase_iff, h.sched.requeue.1] at hx
        exact ⟨hx.2, hx.1⟩
      refine h.ordered_requeue.remove_root (compares_of_near fun x hx y hy => ?_) hroot
        fun x hx y hy hxy => ?_
      · exact hnear x (hrest x hx).1 y (hrest y hy).1
      · change Serial.diff (strideOf (picked (requeue s.machine) next) x)
          (strideOf (picked (requeue s.machine) next) y) ≤ 0
        rw [hother x (hrest x hx).2, hother y (hrest y hy).2]
        exact hxy

/-! ## The other actions -/

/-- An action on the fields that are not those of the scheduling class. -/
theorem StrideInv.frameRun (h : StrideInv s) (hsched : SchedInv t)
    (hpool : t.machine.rq.pool = s.machine.rq.pool)
    (hsub : ∀ p ∈ t.candidates, p ∈ s.candidates)
    (hrun : ∀ p ∈ s.candidates, (t.machine.proc p).run = (s.machine.proc p).run) : StrideInv t := by
  refine h.frame hsched hpool hsub (fun p hp => ?_) fun p hp => ?_
  · unfold strideOf Machine.runInfo
    rw [hrun p hp]
  · unfold Machine.runInfo
    rw [hrun p (hsub p hp)]
    exact id

theorem StrideInv.setState (h : StrideInv s) {v : Proc} (hstate : v.state ≠ ProcState.runnable)
    (hrun : v.run = (s.machine.proc s.machine.current).run)
    (hsched : SchedInv ⟨s.machine.setProc s.machine.current v, s.alive⟩) :
    StrideInv ⟨s.machine.setProc s.machine.current v, s.alive⟩ := by
  refine h.frameRun hsched rfl (fun p hp => ?_) fun p _ => ?_
  · rw [SchedSys.mem_candidates] at hp ⊢
    by_cases hpc : p = s.machine.current
    · have hv : v.state = ProcState.runnable := by
        simpa [Machine.setProc, hpc] using hp.2.1
      exact absurd hv hstate
    · simpa [Machine.setProc, hpc] using hp
  · by_cases hpc : p = s.machine.current
    · simpa [Machine.setProc, hpc] using hrun
    · simp [Machine.setProc, hpc]

theorem StrideInv.step (h : StrideInv s) (hok : StrideOk s op) (hstep : SchedStep s op t) :
    StrideInv t := by
  have hsched := h.sched.step hstep
  cases op with
  | alloc p stride priority =>
      rcases hstep with ⟨hp, rfl⟩
      have hother : ∀ q ∈ s.alive,
          (s.machine.setProc p (allocProc stride priority)).proc q = s.machine.proc q := by
        intro q hq
        refine Function.update_of_ne ?_ _ _
        rintro rfl
        exact hp hq
      refine h.frameRun hsched rfl (fun q hq => ?_) fun q hq => ?_
      · rw [SchedSys.mem_candidates] at hq ⊢
        rcases hq with ⟨hq, hrun, hidle⟩
        rcases Finset.mem_insert.1 hq with rfl | hq
        · have hc : (allocProc stride priority).state = ProcState.runnable := by
            simpa [Machine.setProc] using hrun
          cases hc
        · have hrun' : ((s.machine.setProc p (allocProc stride priority)).proc q).state = _ := hrun
          rw [hother q hq] at hrun'
          exact ⟨hq, hrun', hidle⟩
      · exact congrArg Proc.run (hother q (SchedSys.mem_candidates.1 hq).1)
  | setPid p pid =>
      rcases hstep with ⟨_, _, rfl⟩
      have hsame : ∀ q, ((s.machine.setProc p { s.machine.proc p with pid := pid }).proc q).state =
          (s.machine.proc q).state ∧
          ((s.machine.setProc p { s.machine.proc p with pid := pid }).proc q).run =
            (s.machine.proc q).run := by
        intro q
        by_cases hq : q = p
        · simp [Machine.setProc, hq]
        · simp [Machine.setProc, hq]
      refine h.frameRun hsched rfl (fun q hq => ?_) fun q _ => (hsame q).2
      rw [SchedSys.mem_candidates] at hq ⊢
      exact ⟨hq.1, (hsame q).1.symm.trans hq.2.1, hq.2.2⟩
  | wakeup p =>
      rcases hstep with ⟨⟨hp, hpid⟩, hwake, halive⟩
      have ht : t = ⟨t.machine, s.alive⟩ := by rw [← halive]
      rw [ht]
      exact h.wakeup hok hp hpid hwake
  | sleep waitState =>
      have ht : t = _ := hstep
      subst ht
      exact h.setState (by simp) rfl hsched
  | exit =>
      have ht : t = _ := hstep
      subst ht
      exact h.setState (by simp) rfl hsched
  | schedule =>
      rcases hstep with ⟨hs, halive⟩
      have ht : t = ⟨t.machine, s.alive⟩ := by rw [← halive]
      rw [ht]
      exact h.schedule hs
  | yield =>
      have ht : t = _ := hstep
      subst ht
      exact h.setRun hsched rfl id
  | tick =>
      have ht : t = _ := hstep
      subst ht
      unfold schedClassProcTick at hsched ⊢
      by_cases hidle : s.machine.current ≠ s.machine.idleproc
      · rw [if_pos hidle] at hsched ⊢
        have hrun : ∀ r : RunInfo, (strideProcTick r).stride = r.stride ∧
            (strideProcTick r).priority = r.priority := by
          intro r
          unfold strideProcTick
          by_cases hpos : r.timeSlice > 0
          · by_cases hlast : r.timeSlice - 1 = 0 <;> simp [hpos, hlast]
          · by_cases hlast : r.timeSlice = 0 <;> simp [hpos, hlast]
        refine h.setRun hsched (hrun _).1 fun hp => ?_
        rw [show (defaultSchedClass.procTick _).priority = _ from (hrun _).2]
        exact hp
      · rw [if_neg hidle] at hsched ⊢
        exact h.setRun hsched rfl id
  | setPriority priority =>
      have ht : t = _ := hstep
      subst ht
      refine h.setRun hsched rfl fun _ => ?_
      by_cases hzero : priority = 0
      · simp [hzero]
      · simp [hzero]
  | free p =>
      rcases hstep with ⟨_, _, rfl⟩
      refine h.frameRun hsched rfl (fun q hq => ?_) fun _ _ => rfl
      rw [SchedSys.mem_candidates] at hq ⊢
      exact ⟨Finset.mem_of_mem_erase hq.1, hq.2⟩
  | other =>
      rcases hstep with ⟨proc, rfl, hproc⟩
      refine h.frameRun hsched rfl (fun q hq => ?_) fun q _ => (hproc q).2.2
      rw [SchedSys.mem_candidates] at hq ⊢
      exact ⟨hq.1, (hproc q).1.symm.trans hq.2.1, hq.2.2⟩

/-! ## Whole runs -/

/-- `sched_init` has run, and the idle process is the only one. -/
structure SchedStart (s : SchedSys) : Prop where
  alive : s.alive = {s.machine.idleproc}
  current : s.machine.current = s.machine.idleproc
  pid : (s.machine.proc s.machine.idleproc).pid = 0
  pool : s.machine.rq.pool = SkewHeap.nil
  procNum : s.machine.rq.procNum = 0

theorem SchedStart.schedInv (h : SchedStart s) : SchedInv s := by
  have hready : s.ready = ∅ := by
    refine Finset.eq_empty_iff_forall_notMem.2 fun p hp => ?_
    rcases SchedSys.mem_ready.1 hp with ⟨halive, _, hidle, _⟩
    rw [h.alive, Finset.mem_singleton] at halive
    exact hidle halive
  have honly : ∀ p ∈ s.alive, p = s.machine.idleproc := fun p hp =>
    Finset.mem_singleton.1 (h.alive ▸ hp)
  have hidle : s.machine.idleproc ∈ s.alive := by
    rw [h.alive]
    exact Finset.mem_singleton_self _
  have hpid : (s.machine.proc s.machine.idleproc).pid ≠ -1 := by
    rw [h.pid]
    decide
  refine ⟨⟨?_, ?_⟩, h.current ▸ hidle, hidle, ?_, hpid, fun p hp _ => ?_, fun p hp q hq _ _ => ?_⟩
  · rw [hready, h.pool]
    rfl
  · rw [hready, h.procNum]
    rfl
  · rw [h.current]
    exact hpid
  · rw [honly p hp]
    exact hpid
  · rw [honly p hp, honly q hq]

theorem SchedStart.strideInv (h : SchedStart s) : StrideInv s := by
  have hnone : ∀ p, p ∉ s.candidates := by
    intro p hp
    rcases SchedSys.mem_candidates.1 hp with ⟨halive, _, hidle⟩
    rw [h.alive, Finset.mem_singleton] at halive
    exact hidle halive
  refine ⟨h.schedInv, fun p hp => absurd hp (hnone p), fun p hp => absurd hp (hnone p), ?_⟩
  rw [h.pool]
  exact trivial

/-- A process that is woken outside the window of a queued process breaks the window. -/
theorem not_strideSound_of_wakeup (h : SchedInv s) (hstep : SchedStep s (SchedOp.wakeup p) t)
    (hrun : (s.machine.proc p).state ≠ ProcState.runnable) (hcur : p ≠ s.machine.current)
    (hidle : p ≠ s.machine.idleproc) (hq : q ∈ s.ready) (hfar : ¬ s.machine.Near p q) :
    ¬ StrideSound t.machine.rq t.machine.runInfo := by
  intro hsound
  have hready := (h.step hstep).membership.pool
  rcases hstep with ⟨⟨hp, _⟩, hwake, halive⟩
  rcases (wakeupProc_inv hwake).2 with ⟨hc, _⟩ | ⟨_, m1, hm1, ⟨_, ht⟩ | ⟨hc, _⟩⟩
  · exact hrun hc
  · rcases SchedSys.mem_ready.1 hq with ⟨hqalive, hqrun, hqidle, hqcur⟩
    have hqp : q ≠ p := by
      rintro rfl
      exact hrun hqrun
    have hsame := @sameProcs_enqueue _ defaultSchedClass m1 p
    have hstride : ∀ x, strideOf t.machine x = strideOf s.machine x := by
      intro x
      rw [ht, (runInfo_enqueue m1 p x).1, hm1]
      unfold strideOf Machine.runInfo
      by_cases hx : x = p
      · simp [Machine.setProc, hx]
      · simp [Machine.setProc, hx]
    have hpt : p ∈ t.machine.rq.pool.elements := by
      rw [hready, Finset.mem_val, SchedSys.mem_ready, halive, ht]
      unfold Machine.Ready
      rw [hsame.state, hsame.current, hsame.idleproc, hm1]
      exact ⟨hp, by simp [Machine.setProc], hidle, hcur⟩
    have hqt : q ∈ t.machine.rq.pool.elements := by
      rw [hready, Finset.mem_val, SchedSys.mem_ready, halive, ht]
      unfold Machine.Ready
      rw [hsame.state, hsame.current, hsame.idleproc, hm1]
      exact ⟨hqalive, by simpa [Machine.setProc, hqp] using hqrun, hqidle, hqcur⟩
    have hnear := near_iff.2 (hsound.window p hpt q hqt)
    unfold Machine.Near at hnear hfar
    rw [hstride, hstride] at hnear
    exact hfar hnear
  · exact hcur hc

/-- As long as every process that becomes runnable has a priority and a stride within `BIG_STRIDE` of
the processes that can run, the stride scheduler keeps its promise. A process that is woken outside
the window of a queued process breaks it at once. -/
theorem stride_window_kept {s t : SchedSys} {ops : List SchedOp} (hstart : SchedStart s)
    (hrun : Run (Guarded StrideOk SchedStep) s ops t) :
    StrideSound t.machine.rq t.machine.runInfo ∧
    ∀ p u, SchedStep t (SchedOp.wakeup p) u → (t.machine.proc p).state ≠ ProcState.runnable →
      p ≠ t.machine.current → p ≠ t.machine.idleproc →
      (∃ q ∈ t.ready, ¬ |signedDiff (t.machine.runInfo p).stride (t.machine.runInfo q).stride| ≤
        bigStride.toNat) → ¬ StrideSound u.machine.rq u.machine.runInfo := by
  have hinv : StrideInv t :=
    hrun.invariant StrideInv (fun _ _ _ hinv hstep => hinv.step hstep.1 hstep.2) hstart.strideInv
  refine ⟨hinv.sound, fun p u hstep hsleep hcur hidle hfar => ?_⟩
  rcases hfar with ⟨q, hq, hfar⟩
  exact not_strideSound_of_wakeup hinv.sched hstep hsleep hcur hidle hq fun hc =>
    hfar (near_iff.1 hc)

/-- Process 0 is the idle process. -/
def schedStart : SchedSys :=
  { machine :=
      { proc := fun _ => { allocProc 0 0 with state := ProcState.runnable, pid := 0 }
        current := 0
        idleproc := 0
        rq := strideInit ⟨SkewHeap.nil, 0, maxTimeSlice⟩ }
    alive := {0} }

theorem schedStart_start : SchedStart schedStart :=
  ⟨rfl, rfl, rfl, rfl, rfl⟩

/-- A new process in memory that holds `stride` and `priority`, before it is woken. -/
def newProc (s : SchedSys) (p : Nat) (stride priority : UInt32) : SchedSys :=
  let m := s.machine.setProc p (allocProc stride priority)
  ⟨m.setProc p { m.proc p with pid := p }, insert p s.alive⟩

/-- A new process after it has been woken. -/
def forkProc (s : SchedSys) (p : Nat) (stride priority : UInt32) : SchedSys :=
  let s := newProc s p stride priority
  match wakeupProc defaultSchedClass s.machine p with
  | done m => ⟨m, s.alive⟩
  | _ => s

/-- The scheduler's part of a fork. -/
def forkOps (p : Nat) (stride priority : UInt32) : List SchedOp :=
  [SchedOp.alloc p stride priority, SchedOp.setPid p p, SchedOp.wakeup p]

theorem run_forkProc {ok : SchedSys → SchedOp → Prop} {stride priority : UInt32}
    (hp : p ∉ s.alive) (hcur : p ≠ s.machine.current) (hidle : p ≠ s.machine.idleproc)
    (hpid : ∀ q ∈ s.alive, (s.machine.proc q).pid ≠ p) (hok : ∀ t q x, ok t (SchedOp.setPid q x))
    (halloc : ok s (SchedOp.alloc p stride priority))
    (hwake : ok (newProc s p stride priority) (SchedOp.wakeup p)) :
    Run (Guarded ok SchedStep) s (forkOps p stride priority) (forkProc s p stride priority) := by
  let m := s.machine.setProc p (allocProc stride priority)
  have hself : (newProc s p stride priority).machine.proc p =
      { allocProc stride priority with pid := p } := by
    simp [newProc, Machine.setProc]
  have hzombie : ((newProc s p stride priority).machine.proc p).state ≠ ProcState.zombie := by
    rw [hself]
    simp [allocProc]
  rcases wakeupProc_spec defaultSchedClass hzombie with ⟨m', hm', _⟩
  refine Run.cons ⟨halloc, hp, rfl⟩ (Run.cons ⟨hok ⟨m, insert p s.alive⟩ p p, ?_⟩
    (Run.cons (t := forkProc s p stride priority) ⟨hwake, ?_⟩ Run.nil))
  · refine ⟨⟨Finset.mem_insert_self _ _, by simp [Machine.setProc, allocProc], hcur, hidle⟩, ?_, rfl⟩
    intro q hq hqp
    have hqs := (Finset.mem_insert.1 hq).resolve_left hqp
    simpa [Machine.setProc, hqp] using hpid q hqs
  · have hfork : forkProc s p stride priority = ⟨m', insert p s.alive⟩ := by
      simp only [forkProc, hm']
      rfl
    rw [hfork]
    refine ⟨⟨Finset.mem_insert_self _ _, ?_⟩, hm', rfl⟩
    rw [hself]
    change (p : Int) ≠ -1
    omega

/-- Two new processes in memory with strides 0 and 300000. -/
theorem stride_window_broken :
    SchedStart schedStart ∧
    Run SchedStep schedStart (forkOps 1 0 1 ++ forkOps 2 300000 1)
      (forkProc (forkProc schedStart 1 0 1) 2 300000 1) ∧
    ¬ StrideSound (forkProc (forkProc schedStart 1 0 1) 2 300000 1).machine.rq
      (forkProc (forkProc schedStart 1 0 1) 2 300000 1).machine.runInfo := by
  have h1 : Run (Guarded (fun _ _ => True) SchedStep) schedStart (forkOps 1 0 1)
      (forkProc schedStart 1 0 1) :=
    run_forkProc (by decide) (by decide) (by decide) (by decide) (fun _ _ _ => trivial) trivial
      trivial
  have h2 : Run (Guarded (fun _ _ => True) SchedStep) (forkProc schedStart 1 0 1)
      (forkOps 2 300000 1) (forkProc (forkProc schedStart 1 0 1) 2 300000 1) :=
    run_forkProc (by decide) (by decide) (by decide) (by decide) (fun _ _ _ => trivial) trivial
      trivial
  refine ⟨schedStart_start, (h1.trans h2).mono fun _ _ _ hs => hs.2, fun hc => ?_⟩
  exact absurd (hc.window 1 (by decide) 2 (by decide)) (by decide)

/-- Two new processes in memory with strides 0 and 100000. -/
theorem stride_window_kept_two :
    StrideSound (forkProc (forkProc schedStart 1 0 1) 2 100000 1).machine.rq
      (forkProc (forkProc schedStart 1 0 1) 2 100000 1).machine.runInfo := by
  have h1 : Run (Guarded StrideOk SchedStep) schedStart (forkOps 1 0 1)
      (forkProc schedStart 1 0 1) :=
    run_forkProc (by decide) (by decide) (by decide) (by decide) (fun _ _ _ => trivial) trivial
      fun _ _ => ⟨by decide, by decide⟩
  have h2 : Run (Guarded StrideOk SchedStep) (forkProc schedStart 1 0 1)
      (forkOps 2 100000 1) (forkProc (forkProc schedStart 1 0 1) 2 100000 1) :=
    run_forkProc (by decide) (by decide) (by decide) (by decide) (fun _ _ _ => trivial) trivial
      fun _ _ => ⟨by decide, by decide⟩
  exact (stride_window_kept schedStart_start (h1.trans h2)).1

end TriOS
