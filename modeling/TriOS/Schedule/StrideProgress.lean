import TriOS.Schedule.StrideRuns

/-!
# Progress of the stride scheduler

`stride_pick_next` divides by the priority of the process it picks. As long as all priorities are
between 1 and `BIG_STRIDE` the quotient is at least 1, and then no process can keep the processor
from the others, whatever strides they have and however many of them arrive.
-/

namespace TriOS

open Outcome Transition

variable {s t : SchedSys} {op : SchedOp} {m m' : Machine RunQueue} {p q N : Nat}

/-- A priority by which `BIG_STRIDE` can be divided, with a quotient that is not 0. -/
def FairPriority (priority : UInt32) : Prop :=
  priority ≠ 0 ∧ priority ≤ bigStride

instance {priority : UInt32} : Decidable (FairPriority priority) := by
  unfold FairPriority
  infer_instance

/-- The priority that `alloc_proc` leaves in a new process is fair, and `lab6_set_priority` is not
called with more than `BIG_STRIDE`. -/
def PriorityOk (s : SchedSys) : SchedOp → Prop
  | SchedOp.wakeup p =>
      (s.machine.proc p).state = ProcState.uninit → p ≠ s.machine.idleproc →
        FairPriority (s.machine.runInfo p).priority
  | SchedOp.setPriority priority =>
      s.machine.current ≠ s.machine.idleproc → priority ≤ bigStride
  | _ => True

theorem FairPriority.pass {priority : UInt32} (h : FairPriority priority) :
    stridePass priority = bigStride / priority ∧ 1 ≤ (stridePass priority).toNat ∧
      (stridePass priority).toNat ≤ bigStride.toNat := by
  have hpos : 0 < priority.toNat := by
    rw [Nat.pos_iff_ne_zero]
    exact fun hz => h.1 (UInt32.toNat_inj.1 hz)
  have hle : priority.toNat ≤ bigStride.toNat := UInt32.le_iff_toNat_le.1 h.2
  have hpass : stridePass priority = bigStride / priority := if_neg h.1
  refine ⟨hpass, ?_, stridePass_le h.1⟩
  rw [hpass, UInt32.toNat_div]
  exact (Nat.one_le_div_iff hpos).2 hle

/-- Every process that can ever be queued has a fair priority. -/
structure PriorityInv (s : SchedSys) : Prop where
  sched : SchedInv s
  fair : ∀ p ∈ s.alive, p ≠ s.machine.idleproc → (s.machine.proc p).state ≠ ProcState.uninit →
    FairPriority (s.machine.runInfo p).priority
  current : s.machine.current ≠ s.machine.idleproc →
    (s.machine.proc s.machine.current).state ≠ ProcState.uninit

theorem PriorityInv.fair_candidate (h : PriorityInv s) (hp : p ∈ s.candidates) :
    FairPriority (s.machine.runInfo p).priority := by
  obtain ⟨halive, hrun, hidle⟩ := SchedSys.mem_candidates.1 hp
  refine h.fair p halive hidle ?_
  rw [hrun]
  decide

theorem PriorityInv.fair_current (h : PriorityInv s)
    (hidle : s.machine.current ≠ s.machine.idleproc) :
    FairPriority (s.machine.runInfo s.machine.current).priority :=
  h.fair _ h.sched.current hidle (h.current hidle)

/-- A step that changes the priorities and the states of no process but one, which it leaves with a
fair priority. -/
theorem PriorityInv.frame (h : PriorityInv s) (hsched : SchedInv t)
    (hidle : t.machine.idleproc = s.machine.idleproc)
    (hcur : t.machine.current ≠ t.machine.idleproc →
      (t.machine.proc t.machine.current).state ≠ ProcState.uninit)
    (hfair : ∀ q ∈ t.alive, q ≠ s.machine.idleproc →
      (t.machine.proc q).state ≠ ProcState.uninit →
      FairPriority (t.machine.runInfo q).priority ∨ (q ∈ s.alive ∧
        (s.machine.proc q).state ≠ ProcState.uninit ∧
        (t.machine.runInfo q).priority = (s.machine.runInfo q).priority)) : PriorityInv t := by
  refine ⟨hsched, fun q hq hne hstate => ?_, hcur⟩
  rw [hidle] at hne
  rcases hfair q hq hne hstate with hf | ⟨halive, hold, hsame⟩
  · exact hf
  · rw [hsame]
    exact h.fair q halive hne hold

/-- The states do not change, and the priorities of the processes that were allocated do not. -/
theorem PriorityInv.sameStates (h : PriorityInv s) (hsched : SchedInv t)
    (hidle : t.machine.idleproc = s.machine.idleproc)
    (hcur : t.machine.current = s.machine.current) (halive : ∀ q ∈ t.alive, q ∈ s.alive)
    (hstate : ∀ q, (t.machine.proc q).state = (s.machine.proc q).state)
    (hprio : ∀ q ∈ s.alive, (t.machine.runInfo q).priority = (s.machine.runInfo q).priority) :
    PriorityInv t := by
  refine h.frame hsched hidle (fun hne => ?_) fun q hq _ hq' => Or.inr ⟨halive q hq, ?_,
    hprio q (halive q hq)⟩
  · rw [hcur, hidle] at hne
    rw [hcur, hstate]
    exact h.current hne
  · rwa [hstate] at hq'
theorem strideProcTick_run (r : RunInfo) :
    (strideProcTick r).stride = r.stride ∧ (strideProcTick r).priority = r.priority := by
  unfold strideProcTick
  by_cases hpos : r.timeSlice > 0
  · by_cases hlast : r.timeSlice - 1 = 0 <;> simp [hpos, hlast]
  · by_cases hlast : r.timeSlice = 0 <;> simp [hpos, hlast]

theorem priority_setRun {r : RunInfo} (hr : r.priority = (m.runInfo p).priority) (q : Nat) :
    ((m.setRun p r).runInfo q).priority = (m.runInfo q).priority := by
  by_cases hq : q = p
  · subst hq
    simpa [Machine.runInfo, Machine.setRun, Machine.setProc] using hr
  · simp [Machine.runInfo, Machine.setRun, Machine.setProc, hq]

/-- After `wakeup_proc` the process can run; its stride and its priority are as before. -/
theorem wakeupProc_run (hwake : wakeupProc defaultSchedClass m p = done m') (q : Nat) :
    strideOf m' q = strideOf m q ∧ (m'.runInfo q).priority = (m.runInfo q).priority := by
  rcases (wakeupProc_inv hwake).2 with ⟨_, rfl⟩ | ⟨_, m1, hm1, hm'⟩
  · exact ⟨rfl, rfl⟩
  · have hinfo : m1.runInfo q = m.runInfo q := by
      rw [hm1]
      by_cases hq : q = p
      · simp [Machine.runInfo, Machine.setProc, hq]
      · simp [Machine.runInfo, Machine.setProc, hq]
    have h1 : strideOf m1 q = strideOf m q ∧ (m1.runInfo q).priority = (m.runInfo q).priority := by
      unfold strideOf
      rw [hinfo]
      exact ⟨rfl, rfl⟩
    rcases hm' with ⟨_, rfl⟩ | ⟨_, rfl⟩
    · rw [(runInfo_enqueue m1 p q).1, (runInfo_enqueue m1 p q).2]
      exact h1
    · exact h1

theorem PriorityInv.wakeup (h : PriorityInv s) (hok : PriorityOk s (SchedOp.wakeup p))
    (hp : p ∈ s.alive) (hpid : (s.machine.proc p).pid ≠ -1)
    (hwake : wakeupProc defaultSchedClass s.machine p = done m') : PriorityInv ⟨m', s.alive⟩ := by
  obtain ⟨_, hm', hcur, hidle, hrun, _, _, hother⟩ :=
    wakeupProc_spec defaultSchedClass (wakeupProc_not_zombie hwake)
  cases hwake.symm.trans hm'
  have hprio := fun q => (wakeupProc_run hwake q).2
  refine h.frame (h.sched.wakeup hp hpid hwake) hidle (fun hne => ?_) fun q hq hne hstate => ?_
  · change m'.current ≠ m'.idleproc at hne
    change (m'.proc m'.current).state ≠ _
    rw [hcur, hidle] at hne
    rw [hcur]
    by_cases hc : s.machine.current = p
    · rw [hc, hrun]
      decide
    · rw [(hother _ hc).1]
      exact h.current hne
  · by_cases hqp : q = p
    · subst hqp
      by_cases hold : (s.machine.proc q).state = ProcState.uninit
      · refine Or.inl ?_
        change FairPriority (m'.runInfo q).priority
        rw [hprio]
        exact hok hold hne
      · exact Or.inr ⟨hq, hold, hprio q⟩
    · refine Or.inr ⟨hq, ?_, hprio q⟩
      rw [← (hother q hqp).1]
      exact hstate

/-- The current process stops. -/
theorem PriorityInv.setState (h : PriorityInv s) {v : Proc} (hstate : v.state ≠ ProcState.runnable)
    (hstate' : v.state ≠ ProcState.uninit)
    (hpid : v.pid = (s.machine.proc s.machine.current).pid)
    (hrun : v.run = (s.machine.proc s.machine.current).run) :
    PriorityInv ⟨s.machine.setProc s.machine.current v, s.alive⟩ := by
  have hself : (s.machine.setProc s.machine.current v).proc s.machine.current = v :=
    Function.update_self _ _ _
  refine h.frame (h.sched.setState hpid hstate) rfl (fun _ => ?_) fun q hq hne hq' => Or.inr ?_
  · change ((s.machine.setProc s.machine.current v).proc s.machine.current).state ≠ _
    rwa [hself]
  · by_cases hqc : q = s.machine.current
    · subst hqc
      refine ⟨hq, h.current hne, ?_⟩
      change ((s.machine.setProc _ v).proc _).run.priority = _
      rw [hself, hrun]
      rfl
    · have hsame : (s.machine.setProc s.machine.current v).proc q = s.machine.proc q :=
        Function.update_of_ne hqc _ _
      change ((s.machine.setProc s.machine.current v).proc q).state ≠ _ at hq'
      rw [hsame] at hq'
      refine ⟨hq, hq', ?_⟩
      change ((s.machine.setProc _ v).proc q).run.priority = _
      rw [hsame]
      rfl

theorem picked_priority (m : Machine RunQueue) (next q : Nat) :
    ((picked m next).runInfo q).priority = (m.runInfo q).priority :=
  priority_setRun (by rfl) q

theorem PriorityInv.schedule (h : PriorityInv s)
    (hs : TriOS.schedule defaultSchedClass s.machine = done m') : PriorityInv ⟨m', s.alive⟩ := by
  have hsched := h.sched.schedule hs
  have hre := sameProcs_requeue s.machine
  have hprio := fun q => (runInfo_requeue s.machine q).2
  rcases h.sched.schedule_cases hs with ⟨_, rfl⟩ | ⟨next, hnext, _, rfl⟩
  · refine h.frame hsched hre.idleproc (fun hne => ?_) fun q hq _ hstate => Or.inr ⟨hq, ?_, hprio q⟩
    · exact absurd hre.idleproc.symm hne
    · rw [← hre.state]
      exact hstate
  · have hpk := hre.trans (sameProcs_picked (requeue s.machine) next)
    refine h.frame hsched hpk.idleproc (fun _ => ?_) fun q hq _ hstate => Or.inr ⟨hq, ?_, ?_⟩
    · change ((picked (requeue s.machine) next).proc next).state ≠ _
      rw [hpk.state, (SchedSys.mem_candidates.1 hnext).2.1]
      decide
    · rw [← hpk.state]
      exact hstate
    · exact (picked_priority _ _ q).trans (hprio q)

theorem PriorityInv.step (h : PriorityInv s) (hok : PriorityOk s op) (hstep : SchedStep s op t) :
    PriorityInv t := by
  have hsched := h.sched.step hstep
  cases op with
  | alloc p stride priority =>
      rcases hstep with ⟨hp, rfl⟩
      have hother : ∀ q, q ≠ p →
          (s.machine.setProc p (allocProc stride priority)).proc q = s.machine.proc q := fun q hq =>
        Function.update_of_ne hq _ _
      refine h.frame hsched rfl (fun hne => ?_) fun q hq _ hstate => Or.inr ?_
      · have hcp : s.machine.current ≠ p := fun hc => hp (hc ▸ h.sched.current)
        change ((s.machine.setProc p _).proc s.machine.current).state ≠ _
        rw [hother _ hcp]
        exact h.current hne
      · have hqp : q ≠ p := by
          rintro rfl
          refine hstate ?_
          simp [Machine.setProc, allocProc]
        change ((s.machine.setProc p _).proc q).state ≠ _ at hstate
        rw [hother q hqp] at hstate
        refine ⟨(Finset.mem_insert.1 hq).resolve_left hqp, hstate, ?_⟩
        change ((s.machine.setProc p _).proc q).run.priority = _
        rw [hother q hqp]
        rfl
  | setPid p pid =>
      rcases hstep with ⟨_, _, rfl⟩
      have hsame : ∀ q, ((s.machine.setProc p { s.machine.proc p with pid := pid }).proc q).state =
          (s.machine.proc q).state ∧
          ((s.machine.setProc p { s.machine.proc p with pid := pid }).proc q).run =
            (s.machine.proc q).run := by
        intro q
        by_cases hq : q = p
        · simp [Machine.setProc, hq]
        · simp [Machine.setProc, hq]
      exact h.sameStates hsched rfl rfl (fun _ hq => hq) (fun q => (hsame q).1) fun q _ =>
        congrArg RunInfo.priority (hsame q).2
  | wakeup p =>
      rcases hstep with ⟨⟨hp, hpid⟩, hwake, halive⟩
      have ht : t = ⟨t.machine, s.alive⟩ := by rw [← halive]
      rw [ht]
      exact h.wakeup hok hp hpid hwake
  | sleep waitState =>
      have ht : t = _ := hstep
      subst ht
      exact h.setState (by simp) (by simp) rfl rfl
  | exit =>
      have ht : t = _ := hstep
      subst ht
      exact h.setState (by simp) (by simp) rfl rfl
  | schedule =>
      rcases hstep with ⟨hs, halive⟩
      have ht : t = ⟨t.machine, s.alive⟩ := by rw [← halive]
      rw [ht]
      exact h.schedule hs
  | yield =>
      have ht : t = _ := hstep
      subst ht
      exact h.sameStates hsched rfl rfl (fun _ hq => hq)
        (sameProcs_setRun _ _ _).state fun q _ => priority_setRun (by rfl) q
  | tick =>
      have ht : t = _ := hstep
      subst ht
      have hsame := @sameProcs_procTick _ defaultSchedClass s.machine s.machine.current
      refine h.sameStates hsched hsame.idleproc hsame.current (fun _ hq => hq) hsame.state
        fun q _ => ?_
      unfold schedClassProcTick
      split
      · exact priority_setRun (strideProcTick_run _).2 q
      · exact priority_setRun (by rfl) q
  | setPriority priority =>
      have ht : t = _ := hstep
      subst ht
      have hsame := sameProcs_setRun s.machine s.machine.current
        { s.machine.runInfo s.machine.current with
          priority := if priority = 0 then 1 else priority }
      refine h.frame hsched rfl (fun hne => ?_) fun q hq hne hstate => ?_
      · change ((lab6SetPriority s.machine priority).proc s.machine.current).state ≠ _
        exact fun hc => h.current hne ((hsame.state _).symm.trans hc)
      · by_cases hqc : q = s.machine.current
        · subst hqc
          refine Or.inl ?_
          have hself : ((lab6SetPriority s.machine priority).runInfo s.machine.current).priority =
              if priority = 0 then 1 else priority := by
            simp [lab6SetPriority, Machine.runInfo, Machine.setRun, Machine.setProc]
          change FairPriority ((lab6SetPriority s.machine priority).runInfo _).priority
          rw [hself]
          split
          · decide
          · exact ⟨by assumption, hok hne⟩
        · refine Or.inr ⟨hq, fun hc => hstate ((hsame.state q).trans hc), ?_⟩
          change ((lab6SetPriority s.machine priority).proc q).run.priority = _
          simp [lab6SetPriority, Machine.runInfo, Machine.setRun, Machine.setProc, hqc]
  | free p =>
      rcases hstep with ⟨_, _, rfl⟩
      exact h.sameStates hsched rfl rfl (fun _ hq => Finset.mem_of_mem_erase hq) (fun _ => rfl)
        fun _ _ => rfl
  | other =>
      rcases hstep with ⟨proc, rfl, hproc⟩
      exact h.sameStates hsched rfl rfl (fun _ hq => hq) (fun q => (hproc q).1) fun q _ =>
        congrArg RunInfo.priority (hproc q).2.2
/-! ## One process that is picked again and again -/

/-- A step that is not a call of `schedule` switches to no process and changes no stride. The pool
stays as it is, or one more process waits. -/
theorem SchedStep.quiet (hstep : SchedStep s op t) (hop : op ≠ SchedOp.schedule) :
    t.machine.current = s.machine.current ∧
      (∀ q ∈ s.alive, strideOf t.machine q = strideOf s.machine q) ∧
      (t.machine.rq.pool = s.machine.rq.pool ∨
        t.machine.rq.pool.elements.card = s.machine.rq.pool.elements.card + 1) := by
  cases op with
  | alloc p stride priority =>
      rcases hstep with ⟨hp, rfl⟩
      refine ⟨rfl, fun q hq => ?_, Or.inl rfl⟩
      have hqp : q ≠ p := fun hc => hp (hc ▸ hq)
      simp [strideOf, Machine.runInfo, Machine.setProc, hqp]
  | setPid p pid =>
      rcases hstep with ⟨_, _, rfl⟩
      refine ⟨rfl, fun q _ => ?_, Or.inl rfl⟩
      by_cases hq : q = p
      · simp [strideOf, Machine.runInfo, Machine.setProc, hq]
      · simp [strideOf, Machine.runInfo, Machine.setProc, hq]
  | wakeup p =>
      rcases hstep with ⟨_, hwake, _⟩
      obtain ⟨_, hm', hcur, _⟩ := wakeupProc_spec defaultSchedClass (wakeupProc_not_zombie hwake)
      cases hwake.symm.trans hm'
      refine ⟨hcur, fun q _ => (wakeupProc_run hwake q).1, ?_⟩
      rcases (wakeupProc_inv hwake).2 with ⟨_, hm⟩ | ⟨_, m1, hm1, hm⟩
      · rw [hm]
        exact Or.inl rfl
      · have hrq : m1.rq = s.machine.rq := by
          rw [hm1]
          rfl
        rcases hm with ⟨_, hm⟩ | ⟨_, hm⟩
        · rw [hm]
          by_cases hidle : p = m1.idleproc
          · rw [enqueue_idle m1 hidle, hrq]
            exact Or.inl rfl
          · rw [(enqueue_rq m1 hidle).1, SkewHeap.elements_insert, hrq, Multiset.card_cons]
            exact Or.inr rfl
        · rw [hm, hrq]
          exact Or.inl rfl
  | sleep waitState =>
      have ht : t = _ := hstep
      subst ht
      refine ⟨rfl, fun q _ => ?_, Or.inl rfl⟩
      by_cases hq : q = s.machine.current
      · simp [strideOf, Machine.runInfo, Machine.setProc, hq]
      · simp [strideOf, Machine.runInfo, Machine.setProc, hq]
  | exit =>
      have ht : t = _ := hstep
      subst ht
      refine ⟨rfl, fun q _ => ?_, Or.inl rfl⟩
      by_cases hq : q = s.machine.current
      · simp [strideOf, Machine.runInfo, Machine.setProc, hq]
      · simp [strideOf, Machine.runInfo, Machine.setProc, hq]
  | schedule => exact absurd rfl hop
  | yield =>
      have ht : t = _ := hstep
      subst ht
      exact ⟨rfl, fun q _ => strideOf_setRun (by rfl) q, Or.inl rfl⟩
  | tick =>
      have ht : t = _ := hstep
      subst ht
      unfold schedClassProcTick
      split
      · exact ⟨rfl, fun q _ => strideOf_setRun (strideProcTick_run _).1 q, Or.inl rfl⟩
      · exact ⟨rfl, fun q _ => strideOf_setRun (by rfl) q, Or.inl rfl⟩
  | setPriority priority =>
      have ht : t = _ := hstep
      subst ht
      exact ⟨rfl, fun q _ => strideOf_setRun (by rfl) q, Or.inl rfl⟩
  | free p =>
      rcases hstep with ⟨_, _, rfl⟩
      exact ⟨rfl, fun _ _ => rfl, Or.inl rfl⟩
  | other =>
      rcases hstep with ⟨proc, rfl, hproc⟩
      refine ⟨rfl, fun q _ => ?_, Or.inl rfl⟩
      have hrun := (hproc q).2.2
      unfold strideOf Machine.runInfo
      rw [hrun]

/-- How far the current process is behind the root of the pool, and 0 when it is ahead. -/
def Machine.lag (m : Machine RunQueue) : Nat :=
  match SkewHeap.root m.rq.pool with
  | none => 2 ^ 31
  | some r =>
      let behind := (strideOf m r - strideOf m m.current).toNat
      if behind < 2 ^ 31 then behind + 1 else 0

/-- What the current process uses up when it is picked although others wait: room for processes that
come to wait, and its lag. -/
def Machine.credit (m : Machine RunQueue) (N : Nat) : Nat :=
  (N - m.rq.pool.elements.card) * 2 ^ 31 + m.lag

theorem Machine.lag_le (m : Machine RunQueue) : m.lag ≤ 2 ^ 31 := by
  unfold Machine.lag
  split
  · exact le_rfl
  · dsimp only
    split <;> omega

theorem Machine.lag_eq {r : Nat} (hroot : SkewHeap.root m.rq.pool = some r) :
    m.lag = if (strideOf m r - strideOf m m.current).toNat < 2 ^ 31 then
      (strideOf m r - strideOf m m.current).toNat + 1 else 0 := by
  simp only [Machine.lag, hroot]

theorem SchedInv.credit_quiet (h : SchedInv s) (hstep : SchedStep s op t)
    (hop : op ≠ SchedOp.schedule) (hroom : t.machine.rq.pool.elements.card ≤ N) :
    t.machine.credit N ≤ s.machine.credit N := by
  obtain ⟨hcur, hstride, hpool⟩ := hstep.quiet hop
  unfold Machine.credit
  rcases hpool with hpool | hcard
  · have hlag : t.machine.lag = s.machine.lag := by
      unfold Machine.lag
      rw [hpool]
      cases hroot : SkewHeap.root s.machine.rq.pool with
      | none => rfl
      | some r =>
          have hr : r ∈ s.alive := by
            have hmem := SkewHeap.root_mem hroot
            rw [h.membership.pool, Finset.mem_val, SchedSys.mem_ready] at hmem
            exact hmem.1
          simp only [hcur, hstride r hr, hstride _ h.current]
    rw [hlag, hpool]
  · -- One more process waits; that pays for any lag behind a new root.
    have hlag := t.machine.lag_le
    rw [hcard] at hroom ⊢
    have hsub : N - s.machine.rq.pool.elements.card =
        N - (s.machine.rq.pool.elements.card + 1) + 1 := by omega
    rw [hsub, Nat.add_mul, one_mul]
    omega

/-- The process `p` is inserted and is the root: the rest of the tree has not changed. -/
theorem SkewHeap.insert_root {comp : Nat → Nat → Int} {T : SkewHeap Nat} {r : Nat}
    (hroot : SkewHeap.root T = some r) (hp : p ∉ SkewHeap.elements T)
    (hins : SkewHeap.root (SkewHeap.insert comp T p) = some p) :
    comp r p ≠ -1 ∧ SkewHeap.insert comp T p = SkewHeap.node T p SkewHeap.nil := by
  cases T with
  | nil => cases hroot
  | node l x r' =>
      cases hroot
      have hmerge : SkewHeap.insert comp (SkewHeap.node l r r') p =
          if comp r p = -1 then
            SkewHeap.node (SkewHeap.merge comp r' (SkewHeap.node SkewHeap.nil p SkewHeap.nil)) r l
          else SkewHeap.node (SkewHeap.node l r r') p SkewHeap.nil := rfl
      rw [hmerge] at hins ⊢
      split at hins
      · cases hins
        exact absurd (by simp) hp
      · rename_i hne
        rw [if_neg hne]
        exact ⟨hne, rfl⟩

theorem procStrideCompF_eq_neg_one :
    procStrideCompF m.runInfo p q = -1 ↔ Serial.diff (strideOf m p) (strideOf m q) < 0 := by
  rw [← signedDiff_eq]
  unfold procStrideCompF
  dsimp only
  split
  · omega
  · split <;> omega

/-- A counter that is not ahead of another is advanced by a small step: it comes nearer to the other
one, or it is ahead. -/
theorem lag_advance {R C P : BitVec 32} (hdiff : ¬ Serial.diff R C < 0) (hpos : 1 ≤ P.toNat)
    (hsmall : P.toNat ≤ bigStride.toNat) :
    (R - C).toNat < 2 ^ 31 ∧
      (if (R - (C + P)).toNat < 2 ^ 31 then (R - (C + P)).toNat + 1 else 0) + 1 ≤
        (R - C).toNat + 1 := by
  have hbig : bigStride.toNat = 100000 := rfl
  have hlow : (R - C).toNat < 2 ^ 31 := by
    unfold Serial.diff at hdiff
    rw [BitVec.toInt_eq_toNat_cond] at hdiff
    have := (R - C).isLt
    split at hdiff <;> omega
  have hsub : R - (C + P) = (R - C) - P := by ring
  refine ⟨hlow, ?_⟩
  rw [hsub, BitVec.toNat_sub]
  split <;> omega

/-- The current process is picked although the pool is not empty: its lag gets smaller. -/
theorem PriorityInv.lag_schedule (h : PriorityInv s)
    (hs : TriOS.schedule defaultSchedClass s.machine = done m') (hcur : m'.current = s.machine.current)
    {r : Nat} (hroot : SkewHeap.root s.machine.rq.pool = some r) :
    m'.rq.pool = s.machine.rq.pool ∧ m'.lag + 1 ≤ s.machine.lag := by
  have hcurPool : s.machine.current ∉ SkewHeap.elements s.machine.rq.pool := by
    rw [h.sched.membership.pool, Finset.mem_val, SchedSys.mem_ready]
    exact fun hc => hc.2.2.2 rfl
  have hr : r ∈ s.candidates := by
    have hmem := SkewHeap.root_mem hroot
    rw [h.sched.membership.pool, Finset.mem_val, SchedSys.mem_ready] at hmem
    exact SchedSys.mem_candidates.2 ⟨hmem.1, hmem.2.1, hmem.2.2.1⟩
  have hrc : r ≠ s.machine.current := by
    rintro rfl
    exact hcurPool (SkewHeap.root_mem hroot)
  rcases h.sched.schedule_cases hs with ⟨hempty, _⟩ | ⟨next, hnext, hroot', rfl⟩
  · rw [hempty] at hr
    cases hr
  change next = s.machine.current at hcur
  subst hcur
  have hidle := (SchedSys.mem_candidates.1 hnext).2.2
  have hstate := (SchedSys.mem_candidates.1 hnext).2.1
  have hfair := (h.fair_candidate hnext).pass
  -- The pool that `schedule` picks from is the old one with the current process inserted.
  have hrun : ((clearResched s.machine).proc s.machine.current).state = ProcState.runnable :=
    ((sameProcs_setRun s.machine _ _).state _).trans hstate
  have hpool : (requeue s.machine).rq.pool =
      SkewHeap.insert (procStrideCompF (clearResched s.machine).runInfo) s.machine.rq.pool
        s.machine.current := by
    unfold requeue
    rw [if_pos hrun]
    exact (enqueue_rq (clearResched s.machine) hidle).1
  rw [hpool] at hroot'
  obtain ⟨hbefore, hnode⟩ := SkewHeap.insert_root hroot hcurPool hroot'
  rw [ne_eq, procStrideCompF_eq_neg_one, (runInfo_clearResched _ _).1, (runInfo_clearResched _ _).1]
    at hbefore
  have hpool' : (picked (requeue s.machine) s.machine.current).rq.pool = s.machine.rq.pool := by
    change SkewHeap.remove _ (requeue s.machine).rq.pool s.machine.current = _
    rw [hpool, hnode]
    simp [SkewHeap.remove]
  have hself : strideOf (picked (requeue s.machine) s.machine.current) s.machine.current =
      strideOf s.machine s.machine.current +
        (stridePass (s.machine.runInfo s.machine.current).priority).toBitVec := by
    rw [← (runInfo_requeue s.machine _).1, ← (runInfo_requeue s.machine _).2]
    simp [strideOf, picked, Machine.runInfo, Machine.setRun, Machine.setProc]
  have hother : strideOf (picked (requeue s.machine) s.machine.current) r = strideOf s.machine r := by
    rw [← (runInfo_requeue s.machine r).1]
    simp [strideOf, picked, Machine.runInfo, Machine.setRun, Machine.setProc, hrc]
  obtain ⟨hlow, hnear⟩ := lag_advance hbefore hfair.2.1 hfair.2.2
  refine ⟨hpool', ?_⟩
  have hroot2 : SkewHeap.root (picked (requeue s.machine) s.machine.current).rq.pool = some r := by
    rw [hpool', hroot]
  have hlag' := Machine.lag_eq (m := { picked (requeue s.machine) s.machine.current with
    current := s.machine.current }) hroot2
  change _ = if (strideOf (picked (requeue s.machine) s.machine.current) r -
    strideOf (picked (requeue s.machine) s.machine.current) s.machine.current).toNat < _ then
      (strideOf (picked (requeue s.machine) s.machine.current) r -
        strideOf (picked (requeue s.machine) s.machine.current) s.machine.current).toNat + 1
      else 0 at hlag'
  rw [hself, hother] at hlag'
  rw [hlag', Machine.lag_eq hroot, if_pos hlow]
  exact hnear

/-! ## Runs -/

/-- A step of a run in which at most `N` processes are allocated and only `p` is picked, although
another process waits each time. -/
structure Hogs (p N : Nat) (s : SchedSys) (op : SchedOp) (t : SchedSys) : Prop where
  step : SchedStep s op t
  ok : PriorityOk s op
  room : t.alive.card ≤ N
  picks : op = SchedOp.schedule → t.machine.current = p ∧ ∃ q ∈ s.ready, q ≠ p

theorem SchedInv.pool_card_le (h : SchedInv s) :
    s.machine.rq.pool.elements.card ≤ s.alive.card := by
  rw [h.membership.pool]
  exact Finset.card_filter_le _ _

theorem PriorityInv.credit_schedule (h : PriorityInv s) (hstep : Hogs p N s SchedOp.schedule t)
    (hcur : s.machine.current = p) : t.machine.credit N + 1 ≤ s.machine.credit N := by
  obtain ⟨hp, q, hq, hqp⟩ := hstep.picks rfl
  cases hroot : SkewHeap.root s.machine.rq.pool with
  | none =>
      have hempty := SkewHeap.root_eq_none.1 hroot
      rw [h.sched.membership.pool, Finset.val_eq_zero] at hempty
      rw [hempty] at hq
      cases hq
  | some r =>
      obtain ⟨hpool, hlag⟩ := h.lag_schedule hstep.step.1 (hp.trans hcur.symm) hroot
      unfold Machine.credit
      rw [hpool]
      omega

/-- A process that alone is picked although others wait is picked a bounded number of times. -/
theorem PriorityInv.hogs_bound {ops : List SchedOp} (h : PriorityInv s)
    (hrun : Run (Hogs p N) s ops t) :
    ops.count SchedOp.schedule ≤ (N + 1) * 2 ^ 31 + 1 := by
  -- After the first call of `schedule` the process is the current one, and it uses up its credit.
  have hinv := hrun.trace_invariant (fun as u => PriorityInv u ∧
    (as.count SchedOp.schedule = 0 ∨ u.machine.current = p ∧
      as.count SchedOp.schedule + u.machine.credit N ≤ (N + 1) * 2 ^ 31 + 1)) ?_ ⟨h, Or.inl rfl⟩
  · rcases hinv.2 with hzero | ⟨_, hcount⟩
    · omega
    · omega
  intro as u op v hu hstep
  obtain ⟨hinv, hcount⟩ := hu
  have hnew := hinv.step hstep.ok hstep.step
  have hroom := hnew.sched.pool_card_le.trans hstep.room
  refine ⟨hnew, ?_⟩
  rw [List.count_append, List.count_singleton]
  by_cases hop : op = SchedOp.schedule
  · subst hop
    have hcur := (hstep.picks rfl).1
    refine Or.inr ⟨hcur, ?_⟩
    rcases hcount with hzero | ⟨hbefore, hcount⟩
    · have hlag := v.machine.lag_le
      have hle : (N - v.machine.rq.pool.elements.card) * 2 ^ 31 ≤ N * 2 ^ 31 :=
        Nat.mul_le_mul_right _ (Nat.sub_le _ _)
      simp only [Machine.credit, hzero, beq_self_eq_true, if_true]
      omega
    · have hcredit := hinv.credit_schedule hstep hbefore
      simp only [beq_self_eq_true, if_true]
      omega
  · have hno : (op == SchedOp.schedule) = false := beq_eq_false_iff_ne.2 hop
    rw [hno]
    rcases hcount with hzero | ⟨hbefore, hcount⟩
    · exact Or.inl (by simpa using hzero)
    · have hcredit := hinv.sched.credit_quiet hstep.step hop hroom
      refine Or.inr ⟨(hstep.step.quiet hop).1.trans hbefore, ?_⟩
      simp only [Bool.false_eq_true, if_false]
      omega
theorem SchedStart.priorityInv (h : SchedStart s) : PriorityInv s := by
  refine ⟨h.schedInv, fun p hp hidle => ?_, fun hne => absurd h.current hne⟩
  rw [h.alive, Finset.mem_singleton] at hp
  exact absurd hp hidle

/-- The step that `schedule` adds to the process it picks. -/
theorem PriorityInv.pick_step (h : PriorityInv s)
    (hs : TriOS.schedule defaultSchedClass s.machine = done m')
    (hidle : m'.current ≠ m'.idleproc) :
    (s.machine.runInfo m'.current).priority ≠ 0 ∧
      1 ≤ (bigStride / (s.machine.runInfo m'.current).priority).toNat ∧
      strideOf m' m'.current = strideOf s.machine m'.current +
        (bigStride / (s.machine.runInfo m'.current).priority).toBitVec := by
  rcases h.sched.schedule_cases hs with ⟨_, rfl⟩ | ⟨next, hnext, _, rfl⟩
  · exact absurd (sameProcs_requeue s.machine).idleproc.symm hidle
  · have hfair := h.fair_candidate hnext
    have hself : strideOf (picked (requeue s.machine) next) next =
        strideOf s.machine next + (stridePass (s.machine.runInfo next).priority).toBitVec := by
      rw [← (runInfo_requeue s.machine next).1, ← (runInfo_requeue s.machine next).2]
      simp [strideOf, picked, Machine.runInfo, Machine.setRun, Machine.setProc]
    obtain ⟨hpass, hpos, _⟩ := hfair.pass
    rw [hpass] at hself hpos
    exact ⟨hfair.1, hpos, hself⟩

/-- Runs in which the priority of every new process is between 1 and `BIG_STRIDE`, and
`lab6_set_priority` is not called with more than `BIG_STRIDE`. In every state reached all queued
processes have such a priority, `schedule` divides by no 0 and adds at least 1 to the process it
picks, and no process is picked for ever while others wait. -/
theorem stride_progress {s t : SchedSys} {ops : List SchedOp} (hstart : SchedStart s)
    (hrun : Run (Guarded PriorityOk SchedStep) s ops t) :
    (∀ p ∈ t.machine.rq.pool.elements, FairPriority (t.machine.runInfo p).priority) ∧
    (∀ u, SchedStep t SchedOp.schedule u → u.machine.current ≠ u.machine.idleproc →
      (t.machine.runInfo u.machine.current).priority ≠ 0 ∧
        1 ≤ (bigStride / (t.machine.runInfo u.machine.current).priority).toNat ∧
        strideOf u.machine u.machine.current = strideOf t.machine u.machine.current +
          (bigStride / (t.machine.runInfo u.machine.current).priority).toBitVec) ∧
    ∀ p N ops' u, Run (Hogs p N) t ops' u →
      ops'.count SchedOp.schedule ≤ (N + 1) * 2 ^ 31 + 1 := by
  have h : PriorityInv t :=
    hrun.invariant PriorityInv (fun _ _ _ hi hs => hi.step hs.1 hs.2) hstart.priorityInv
  refine ⟨fun p hp => ?_, fun u hs hidle => h.pick_step hs.1 hidle, fun p N ops' u hrun' =>
    h.hogs_bound hrun'⟩
  rw [h.sched.membership.pool, Finset.mem_val, SchedSys.mem_ready] at hp
  exact h.fair_candidate (SchedSys.mem_candidates.2 ⟨hp.1, hp.2.1, hp.2.2.1⟩)

/-- The state after `schedule`. -/
def scheduled (s : SchedSys) : SchedSys :=
  match schedule defaultSchedClass s.machine with
  | done m => ⟨m, s.alive⟩
  | _ => s

theorem schedStep_scheduled (s : SchedSys) : SchedStep s SchedOp.schedule (scheduled s) := by
  have hs := schedule_eq s.machine
  unfold scheduled
  rw [hs]
  exact ⟨hs, rfl⟩

/-- The current process has asked for a priority. -/
def askPriority (s : SchedSys) (priority : UInt32) : SchedSys :=
  ⟨lab6SetPriority s.machine priority, s.alive⟩

/-- A new process whose memory holds the priority 1. -/
theorem stride_progress_one :
    SchedStart schedStart ∧ ∀ p ∈ (forkProc schedStart 1 0 1).machine.rq.pool.elements,
      FairPriority ((forkProc schedStart 1 0 1).machine.runInfo p).priority := by
  have hrun : Run (Guarded PriorityOk SchedStep) schedStart (forkOps 1 0 1)
      (forkProc schedStart 1 0 1) :=
    run_forkProc (by decide) (by decide) (by decide) (by decide) (fun _ _ _ => trivial) trivial
      fun _ _ => by decide
  exact ⟨schedStart_start, (stride_progress schedStart_start hrun).1⟩

/-- Two processes; the first one runs and has asked for a priority above `BIG_STRIDE`. -/
def greedy : SchedSys :=
  askPriority (scheduled (forkProc (forkProc schedStart 1 0 1) 2 200000 1)) 100001

/-- A new process in memory that holds the priority 0 is picked, and the divisor is 0. Another one
asks for the priority `BIG_STRIDE + 1`; it is picked, and its stride stays as it is. -/
theorem stride_step_broken :
    SchedStart schedStart ∧
    (Run SchedStep schedStart (forkOps 1 0 0) (forkProc schedStart 1 0 0) ∧
      SchedStep (forkProc schedStart 1 0 0) SchedOp.schedule (scheduled (forkProc schedStart 1 0 0)) ∧
      (scheduled (forkProc schedStart 1 0 0)).machine.current = 1 ∧
      ((forkProc schedStart 1 0 0).machine.runInfo 1).priority = 0) ∧
    Run SchedStep schedStart
        (forkOps 1 0 1 ++ forkOps 2 200000 1 ++ [SchedOp.schedule, SchedOp.setPriority 100001])
        greedy ∧
      SchedStep greedy SchedOp.schedule (scheduled greedy) ∧
      (scheduled greedy).machine.current = 1 ∧
      strideOf (scheduled greedy).machine 1 = strideOf greedy.machine 1 := by
  have hzero : Run (Guarded (fun _ _ => True) SchedStep) schedStart (forkOps 1 0 0)
      (forkProc schedStart 1 0 0) :=
    run_forkProc (by decide) (by decide) (by decide) (by decide) (fun _ _ _ => trivial) trivial
      trivial
  have h1 : Run (Guarded (fun _ _ => True) SchedStep) schedStart (forkOps 1 0 1)
      (forkProc schedStart 1 0 1) :=
    run_forkProc (by decide) (by decide) (by decide) (by decide) (fun _ _ _ => trivial) trivial
      trivial
  have h2 : Run (Guarded (fun _ _ => True) SchedStep) (forkProc schedStart 1 0 1)
      (forkOps 2 200000 1) (forkProc (forkProc schedStart 1 0 1) 2 200000 1) :=
    run_forkProc (by decide) (by decide) (by decide) (by decide) (fun _ _ _ => trivial) trivial
      trivial
  have hforks := (h1.trans h2).mono fun _ _ _ hs => hs.2
  have htwo : Run SchedStep (forkProc (forkProc schedStart 1 0 1) 2 200000 1)
      [SchedOp.schedule, SchedOp.setPriority 100001] greedy :=
    Run.cons (schedStep_scheduled _) (Run.cons rfl Run.nil)
  refine ⟨schedStart_start, ⟨hzero.mono fun _ _ _ hs => hs.2, schedStep_scheduled _, by decide,
    by decide⟩, hforks.trans htwo, schedStep_scheduled _, by decide, by decide⟩

end TriOS
