import TriOS.Library.Transition
import TriOS.Schedule.Stride

/-!
# Runs of the scheduler

The scheduler as a system of its own: which descriptors are allocated, and what the rest of the
kernel can do to the fields that scheduling depends on. Every such action keeps the run pool equal
to the set of processes that wait for the processor.
-/

namespace TriOS

open Outcome Transition

/-- The machine and the process descriptors that are allocated. -/
structure SchedSys where
  machine : Machine RunQueue
  alive : Finset Nat

/-- The process waits for the processor. -/
def Machine.Ready {Q : Type} (m : Machine Q) (p : Nat) : Prop :=
  (m.proc p).state = ProcState.runnable ∧ p ≠ m.idleproc ∧ p ≠ m.current

instance {Q : Type} (m : Machine Q) (p : Nat) : Decidable (m.Ready p) := by
  unfold Machine.Ready
  infer_instance

/-- The processes that wait for the processor. -/
def SchedSys.ready (s : SchedSys) : Finset Nat :=
  s.alive.filter s.machine.Ready

/-- `lab6_set_priority` -/
def lab6SetPriority {Q : Type} (m : Machine Q) (priority : UInt32) : Machine Q :=
  m.setRun m.current
    { m.runInfo m.current with priority := if priority = 0 then 1 else priority }

/-- `do_yield` -/
def doYield {Q : Type} (m : Machine Q) : Machine Q :=
  m.setRun m.current { m.runInfo m.current with needResched := true }

/-- What the kernel does to the fields that scheduling depends on. `alloc` is given the contents of
the new memory; `other` is any change of the remaining fields. -/
inductive SchedOp where
  | alloc (p : Nat) (stride priority : UInt32)
  | setPid (p : Nat) (pid : Int)
  | wakeup (p : Nat)
  | sleep (waitState : UInt32)
  | exit
  | schedule
  | yield
  | tick
  | setPriority (priority : UInt32)
  | free (p : Nat)
  | other
  deriving DecidableEq, Repr

/-- One action. -/
def SchedStep (s : SchedSys) (op : SchedOp) (t : SchedSys) : Prop :=
  match op with
  | SchedOp.alloc p stride priority =>
      p ∉ s.alive ∧
        t = ⟨s.machine.setProc p (allocProc stride priority), insert p s.alive⟩
  | SchedOp.setPid p pid =>
      (p ∈ s.alive ∧ (s.machine.proc p).state = ProcState.uninit ∧
          p ≠ s.machine.current ∧ p ≠ s.machine.idleproc) ∧
        (∀ q ∈ s.alive, q ≠ p → (s.machine.proc q).pid ≠ pid) ∧
          t = ⟨s.machine.setProc p { s.machine.proc p with pid := pid }, s.alive⟩
  | SchedOp.wakeup p =>
      (p ∈ s.alive ∧ (s.machine.proc p).pid ≠ -1) ∧
        wakeupProc defaultSchedClass s.machine p = done t.machine ∧ t.alive = s.alive
  | SchedOp.sleep waitState =>
      t = ⟨s.machine.setProc s.machine.current
        { s.machine.proc s.machine.current with
          state := ProcState.sleeping, waitState := waitState }, s.alive⟩
  | SchedOp.exit =>
      t = ⟨s.machine.setProc s.machine.current
        { s.machine.proc s.machine.current with state := ProcState.zombie }, s.alive⟩
  | SchedOp.schedule =>
      TriOS.schedule defaultSchedClass s.machine = done t.machine ∧ t.alive = s.alive
  | SchedOp.yield => t = ⟨doYield s.machine, s.alive⟩
  | SchedOp.tick =>
      t = ⟨schedClassProcTick defaultSchedClass s.machine s.machine.current, s.alive⟩
  | SchedOp.setPriority priority => t = ⟨lab6SetPriority s.machine priority, s.alive⟩
  | SchedOp.free p =>
      (p ≠ s.machine.current ∧ p ≠ s.machine.idleproc) ∧
        (s.machine.proc p).state ≠ ProcState.runnable ∧ t = ⟨s.machine, s.alive.erase p⟩
  | SchedOp.other =>
      ∃ proc, t = ⟨{ s.machine with proc := proc }, s.alive⟩ ∧
        ∀ p, (proc p).state = (s.machine.proc p).state ∧ (proc p).pid = (s.machine.proc p).pid ∧
          (proc p).run = (s.machine.proc p).run

/-- The run pool holds the processes that wait for the processor, each once. -/
structure Membership (s : SchedSys) : Prop where
  pool : s.machine.rq.pool.elements = s.ready.val
  procNum : s.machine.rq.procNum = s.ready.card

/-- The invariant of the scheduler. A process whose pid is -1 has not been given one yet. -/
structure SchedInv (s : SchedSys) : Prop where
  membership : Membership s
  current : s.machine.current ∈ s.alive
  idle : s.machine.idleproc ∈ s.alive
  current_pid : (s.machine.proc s.machine.current).pid ≠ -1
  idle_pid : (s.machine.proc s.machine.idleproc).pid ≠ -1
  ready_pid : ∀ p ∈ s.alive, (s.machine.proc p).state = ProcState.runnable →
    (s.machine.proc p).pid ≠ -1
  pids : ∀ p ∈ s.alive, ∀ q ∈ s.alive, (s.machine.proc p).pid = (s.machine.proc q).pid →
    (s.machine.proc p).pid ≠ -1 → p = q

variable {s t : SchedSys} {op : SchedOp} {m m' : Machine RunQueue} {p q : Nat}

theorem SchedSys.mem_ready : p ∈ s.ready ↔ p ∈ s.alive ∧ s.machine.Ready p :=
  Finset.mem_filter

/-! ## The parts of the invariant -/

/-- The pool does not change, and neither does the set of ready processes. -/
theorem Membership.congr (h : Membership s) (hpool : t.machine.rq.pool = s.machine.rq.pool)
    (hnum : t.machine.rq.procNum = s.machine.rq.procNum)
    (hready : ∀ p, (p ∈ t.alive ∧ t.machine.Ready p) ↔ (p ∈ s.alive ∧ s.machine.Ready p)) :
    Membership t := by
  have hsame : t.ready = s.ready := by
    ext p
    rw [SchedSys.mem_ready, SchedSys.mem_ready]
    exact hready p
  refine ⟨?_, ?_⟩
  · rw [hsame, hpool]
    exact h.pool
  · rw [hsame, hnum]
    exact h.procNum

/-- A change after which the same processes are allocated, with the same pids, and every runnable
one was runnable before or has a pid. -/
theorem SchedInv.frame (h : SchedInv s) (hmem : Membership t) (halive : t.alive = s.alive)
    (hcur : t.machine.current ∈ s.alive ∧ (s.machine.proc t.machine.current).pid ≠ -1)
    (hidle : t.machine.idleproc = s.machine.idleproc)
    (hpid : ∀ p, (t.machine.proc p).pid = (s.machine.proc p).pid)
    (hstate : ∀ p, (t.machine.proc p).state = ProcState.runnable →
      (s.machine.proc p).state = ProcState.runnable ∨ (s.machine.proc p).pid ≠ -1) : SchedInv t := by
  refine ⟨hmem, ?_, ?_, ?_, ?_, ?_, ?_⟩
  · rw [halive]
    exact hcur.1
  · rw [halive, hidle]
    exact h.idle
  · rw [hpid]
    exact hcur.2
  · rw [hpid, hidle]
    exact h.idle_pid
  · intro p hp hrun
    rw [halive] at hp
    rw [hpid]
    rcases hstate p hrun with hrun' | hpid'
    · exact h.ready_pid p hp hrun'
    · exact hpid'
  · intro p hp q hq
    rw [halive] at hp hq
    rw [hpid, hpid]
    exact h.pids p hp q hq

theorem SchedInv.current_alive (h : SchedInv s) (hcur : t.machine.current = s.machine.current) :
    t.machine.current ∈ s.alive ∧ (s.machine.proc t.machine.current).pid ≠ -1 := by
  rw [hcur]
  exact ⟨h.current, h.current_pid⟩

/-- A change of fields other than the state, the pid and those of the scheduling class. -/
theorem SchedInv.sameProcs (h : SchedInv s) (hm : SameProcs s.machine m)
    (hpool : m.rq.pool = s.machine.rq.pool) (hnum : m.rq.procNum = s.machine.rq.procNum) :
    SchedInv ⟨m, s.alive⟩ := by
  refine h.frame (h.membership.congr hpool hnum fun p => ?_) rfl (h.current_alive hm.current)
    hm.idleproc (fun p => ?_) fun p hp => Or.inl ?_
  · simp only [Machine.Ready, hm.state, hm.current, hm.idleproc]
  · exact hm.pid p
  · rwa [hm.state] at hp

/-! ## Entering the pool -/

theorem enqueue_rq (m : Machine RunQueue) (hp : p ≠ m.idleproc) :
    (schedClassEnqueue defaultSchedClass m p).rq.pool =
        SkewHeap.insert (procStrideCompF m.runInfo) m.rq.pool p ∧
      (schedClassEnqueue defaultSchedClass m p).rq.procNum = m.rq.procNum + 1 := by
  unfold schedClassEnqueue
  rw [if_pos hp]
  exact ⟨rfl, rfl⟩

theorem enqueue_idle (m : Machine RunQueue) (hp : p = m.idleproc) :
    schedClassEnqueue defaultSchedClass m p = m := by
  unfold schedClassEnqueue
  rw [if_neg (not_not.2 hp)]

/-- A process that becomes ready is added to the pool. -/
theorem Membership.insert (h : Membership s) (hpalive : p ∈ s.alive) (hp : ¬ s.machine.Ready p)
    (halive : t.alive = s.alive)
    (hpool : t.machine.rq.pool.elements = p ::ₘ s.machine.rq.pool.elements)
    (hnum : t.machine.rq.procNum = s.machine.rq.procNum + 1)
    (hready : ∀ q, t.machine.Ready q ↔ q = p ∨ s.machine.Ready q) : Membership t := by
  have hnot : p ∉ s.ready := fun hc => hp (SchedSys.mem_ready.1 hc).2
  have hsame : t.ready = Insert.insert p s.ready := by
    ext q
    rw [Finset.mem_insert, SchedSys.mem_ready, SchedSys.mem_ready, halive, hready]
    constructor
    · rintro ⟨hq, rfl | hq'⟩
      · exact Or.inl rfl
      · exact Or.inr ⟨hq, hq'⟩
    · rintro (rfl | ⟨hq, hq'⟩)
      · exact ⟨hpalive, Or.inl rfl⟩
      · exact ⟨hq, Or.inr hq'⟩
  refine ⟨?_, ?_⟩
  · rw [hsame, hpool, h.pool, Finset.insert_val_of_notMem hnot]
  · rw [hsame, hnum, h.procNum, Finset.card_insert_of_notMem hnot]

/-- All that `wakeup_proc` does: it makes a process runnable that was not, and adds it to the pool
if it is neither the current process nor the idle process. -/
theorem wakeupProc_inv (h : wakeupProc defaultSchedClass m p = done m') :
    (m.proc p).state ≠ ProcState.zombie ∧
    (((m.proc p).state = ProcState.runnable ∧ m' = m) ∨
    ((m.proc p).state ≠ ProcState.runnable ∧
      ∃ m1, m1 = m.setProc p { m.proc p with state := ProcState.runnable, waitState := 0 } ∧
        ((p ≠ m.current ∧ m' = schedClassEnqueue defaultSchedClass m1 p) ∨
          (p = m.current ∧ m' = m1)))) := by
  refine ⟨wakeupProc_not_zombie h, ?_⟩
  simp only [wakeupProc, bind_eq_done, assert_eq_done] at h
  rcases h with ⟨_, _, h⟩
  by_cases hrun : (m.proc p).state = ProcState.runnable
  · simp only [hrun, ne_eq, not_true_eq_false, if_false, pure_eq_done, done.injEq] at h
    exact Or.inl ⟨hrun, h.symm⟩
  · simp only [ne_eq, hrun, not_false_eq_true, if_true, pure_eq_done] at h
    refine Or.inr ⟨hrun, _, rfl, ?_⟩
    by_cases hcur : p = m.current
    · have hcond : ∀ v, ¬ ¬ p = (m.setProc p v).current := fun _ => not_not.2 hcur
      rw [if_neg (hcond _)] at h
      exact Or.inr ⟨hcur, (done.inj h).symm⟩
    · have hcond : ∀ v, ¬ p = (m.setProc p v).current := fun _ => hcur
      rw [if_pos (hcond _)] at h
      exact Or.inl ⟨hcur, (done.inj h).symm⟩

theorem SchedInv.wakeup (h : SchedInv s) (hp : p ∈ s.alive) (hpid : (s.machine.proc p).pid ≠ -1)
    (hwake : wakeupProc defaultSchedClass s.machine p = done m') : SchedInv ⟨m', s.alive⟩ := by
  rcases (wakeupProc_inv hwake).2 with ⟨_, rfl⟩ | ⟨hrun, m1, hm1, hm'⟩
  · exact h
  · have hself : m1.proc p = { s.machine.proc p with state := ProcState.runnable, waitState := 0 } := by
      rw [hm1]
      simp [Machine.setProc]
    have hother : ∀ q, q ≠ p → m1.proc q = s.machine.proc q := by
      intro q hq
      rw [hm1]
      simp [Machine.setProc, hq]
    have hpids : ∀ q, (m1.proc q).pid = (s.machine.proc q).pid := by
      intro q
      by_cases hq : q = p
      · rw [hq, hself]
      · rw [hother q hq]
    have hstates : ∀ q, (m1.proc q).state = ProcState.runnable →
        (s.machine.proc q).state = ProcState.runnable ∨ (s.machine.proc q).pid ≠ -1 := by
      intro q hq
      by_cases hqp : q = p
      · exact Or.inr (hqp ▸ hpid)
      · rw [hother q hqp] at hq
        exact Or.inl hq
    have hcur1 : m1.current = s.machine.current := by
      rw [hm1]
      rfl
    have hidle1 : m1.idleproc = s.machine.idleproc := by
      rw [hm1]
      rfl
    have hrq1 : m1.rq = s.machine.rq := by
      rw [hm1]
      rfl
    have hready : ∀ q, m1.Ready q ↔
        (q = p ∧ p ≠ s.machine.idleproc ∧ p ≠ s.machine.current) ∨ s.machine.Ready q := by
      intro q
      unfold Machine.Ready
      rw [hcur1, hidle1]
      by_cases hq : q = p
      · subst hq
        simp [hself, hrun]
      · simp [hother q hq, hq]
    -- Without an enqueue nobody becomes ready.
    have hquiet : (p = s.machine.idleproc ∨ p = s.machine.current) → SchedInv ⟨m1, s.alive⟩ := by
      intro hor
      refine h.frame (h.membership.congr (by rw [hrq1]) (by rw [hrq1]) fun q => ?_) rfl
        (h.current_alive hcur1) hidle1 hpids hstates
      change _ ∧ m1.Ready q ↔ _
      rw [hready]
      have hnot : ¬ (q = p ∧ p ≠ s.machine.idleproc ∧ p ≠ s.machine.current) := by tauto
      simp [hnot]
    rcases hm' with ⟨hcur, rfl⟩ | ⟨hcur, rfl⟩
    · by_cases hidle : p = s.machine.idleproc
      · rw [enqueue_idle m1 (hidle.trans hidle1.symm)]
        exact hquiet (Or.inl hidle)
      · have hm2 := @sameProcs_enqueue _ defaultSchedClass m1 p
        have hrq := enqueue_rq m1 (p := p) (by rw [hidle1]; exact hidle)
        refine h.frame (h.membership.insert hp ?_ rfl ?_ ?_ fun q => ?_) rfl
          (h.current_alive (hm2.current.trans hcur1)) (hm2.idleproc.trans hidle1) (fun q => ?_) fun q hq => ?_
        · exact fun hc => hrun hc.1
        · rw [hrq.1, SkewHeap.elements_insert, hrq1]
        · rw [hrq.2, hrq1]
        · have hsame : (schedClassEnqueue defaultSchedClass m1 p).Ready q ↔ m1.Ready q := by
            simp only [Machine.Ready, hm2.state, hm2.current, hm2.idleproc]
          rw [hsame, hready]
          simp [hidle, hcur]
        · exact (hm2.pid q).trans (hpids q)
        · rw [hm2.state] at hq
          exact hstates q hq
    · exact hquiet (Or.inr hcur)

/-! ## schedule -/

/-- `current->need_resched = 0` -/
def clearResched (m : Machine RunQueue) : Machine RunQueue :=
  m.setRun m.current { m.runInfo m.current with needResched := false }

/-- The first part of `schedule`: the current process goes back to the pool if it can run. -/
def requeue (m : Machine RunQueue) : Machine RunQueue :=
  if ((clearResched m).proc m.current).state = ProcState.runnable then
    schedClassEnqueue defaultSchedClass (clearResched m) m.current else clearResched m

/-- The machine after `next` has been picked and taken out of the pool. -/
def picked (m : Machine RunQueue) (next : Nat) : Machine RunQueue :=
  let m := m.setRun next
    { m.runInfo next with
      stride := (m.runInfo next).stride + stridePass (m.runInfo next).priority }
  { m with rq := strideDequeue m.rq m.runInfo next }

theorem schedule_eq (m : Machine RunQueue) :
    schedule defaultSchedClass m = done (match SkewHeap.root (requeue m).rq.pool with
      | none => procRun (requeue m) (requeue m).idleproc
      | some next => procRun (picked (requeue m) next) next) := by
  change (defaultSchedClass.pickNext (requeue m).rq (requeue m).runInfo >>= _) = _
  cases hroot : SkewHeap.root (requeue m).rq.pool with
  | none =>
      have hpick : defaultSchedClass.pickNext (requeue m).rq (requeue m).runInfo = done none := by
        simp [defaultSchedClass, stridePickNext, hroot]
      rw [hpick]
      rfl
  | some next =>
      have hpick : defaultSchedClass.pickNext (requeue m).rq (requeue m).runInfo =
          done (some (next, { (requeue m).runInfo next with
            stride := ((requeue m).runInfo next).stride +
              stridePass ((requeue m).runInfo next).priority })) := by
        simp [defaultSchedClass, stridePickNext, hroot]
      rw [hpick]
      rfl

theorem sameProcs_requeue (m : Machine RunQueue) : SameProcs m (requeue m) := by
  have h1 : SameProcs m (clearResched m) := sameProcs_setRun m _ _
  unfold requeue
  by_cases hrun : ((clearResched m).proc m.current).state = ProcState.runnable
  · rw [if_pos hrun]
    exact h1.trans (sameProcs_enqueue _ _)
  · rw [if_neg hrun]
    exact h1

theorem sameProcs_picked (m : Machine RunQueue) (next : Nat) : SameProcs m (picked m next) := by
  have h1 := sameProcs_setRun m next { m.runInfo next with
    stride := (m.runInfo next).stride + stridePass (m.runInfo next).priority }
  exact ⟨h1.current, h1.idleproc, h1.proc⟩

/-- The pool that `schedule` picks from. -/
def SchedSys.candidates (s : SchedSys) : Finset Nat :=
  s.alive.filter fun p =>
    (s.machine.proc p).state = ProcState.runnable ∧ p ≠ s.machine.idleproc

theorem SchedSys.mem_candidates : p ∈ s.candidates ↔
    p ∈ s.alive ∧ (s.machine.proc p).state = ProcState.runnable ∧ p ≠ s.machine.idleproc :=
  Finset.mem_filter

theorem SchedInv.requeue (h : SchedInv s) :
    (requeue s.machine).rq.pool.elements = s.candidates.val ∧
      (requeue s.machine).rq.procNum = s.candidates.card := by
  have hstate : ((clearResched s.machine).proc s.machine.current).state =
      (s.machine.proc s.machine.current).state := (sameProcs_setRun s.machine _ _).state _
  have hsame : ∀ c : Finset Nat, (∀ p, p ∈ s.candidates ↔ p ∈ c) → s.candidates = c :=
    fun c hc => Finset.ext hc
  have hquiet : ¬ ((s.machine.proc s.machine.current).state = ProcState.runnable ∧
      s.machine.current ≠ s.machine.idleproc) → s.candidates = s.ready := by
    intro hnot
    refine hsame _ fun p => ?_
    rw [SchedSys.mem_candidates, SchedSys.mem_ready]
    unfold Machine.Ready
    by_cases hp : p = s.machine.current
    · subst hp
      tauto
    · tauto
  by_cases hrun : (s.machine.proc s.machine.current).state = ProcState.runnable
  · have hm : TriOS.requeue s.machine =
        schedClassEnqueue defaultSchedClass (clearResched s.machine) s.machine.current := by
      unfold TriOS.requeue
      rw [if_pos (hstate.trans hrun)]
    rw [hm]
    by_cases hidle : s.machine.current = s.machine.idleproc
    · rw [enqueue_idle (clearResched s.machine) hidle, hquiet fun hc => hc.2 hidle]
      exact ⟨h.membership.pool, h.membership.procNum⟩
    · have hrq := enqueue_rq (p := s.machine.current) (clearResched s.machine) hidle
      have hnot : s.machine.current ∉ s.ready := fun hc => (SchedSys.mem_ready.1 hc).2.2.2 rfl
      have hins : s.candidates = insert s.machine.current s.ready := by
        refine hsame _ fun p => ?_
        rw [SchedSys.mem_candidates, Finset.mem_insert, SchedSys.mem_ready]
        unfold Machine.Ready
        by_cases hp : p = s.machine.current
        · subst hp
          simp [h.current, hrun, hidle]
        · tauto
      rw [hrq.1, hrq.2, SkewHeap.elements_insert, hins, Finset.insert_val_of_notMem hnot,
        Finset.card_insert_of_notMem hnot]
      exact ⟨congrArg _ h.membership.pool, congrArg (· + 1) h.membership.procNum⟩
  · have hm : TriOS.requeue s.machine = clearResched s.machine := by
      unfold TriOS.requeue
      rw [if_neg (fun hc => hrun (hstate.symm.trans hc))]
    rw [hm, hquiet fun hc => hrun hc.1]
    exact ⟨h.membership.pool, h.membership.procNum⟩

/-- `proc_run` switches to the process, since no other process has its pid. -/
theorem procRun_eq (m : Machine RunQueue) {next : Nat}
    (hpid : (m.proc next).pid = (m.proc m.current).pid → next = m.current) :
    procRun m next = { m with current := next } := by
  unfold procRun
  by_cases hc : next = m.current
  · rw [if_neg (not_not.2 hc), hc]
  · rw [if_pos hc, if_neg fun hp => hc (hpid hp)]

/-- What `schedule` does: it switches to the root of the pool it picks from, or to the idle process
when that pool is empty. -/
theorem SchedInv.schedule_cases (h : SchedInv s)
    (hs : schedule defaultSchedClass s.machine = done m') :
    (s.candidates = ∅ ∧ m' = { TriOS.requeue s.machine with current := s.machine.idleproc }) ∨
    ∃ next ∈ s.candidates, SkewHeap.root (TriOS.requeue s.machine).rq.pool = some next ∧
      m' = { picked (TriOS.requeue s.machine) next with current := next } := by
  have hre := sameProcs_requeue s.machine
  have hpid := hre.pid
  rw [schedule_eq] at hs
  cases hroot : SkewHeap.root (TriOS.requeue s.machine).rq.pool with
  | none =>
      rw [hroot] at hs
      have hempty := SkewHeap.root_eq_none.1 hroot
      rw [h.requeue.1] at hempty
      refine Or.inl ⟨Finset.val_eq_zero.1 hempty, ?_⟩
      have hrun : procRun (TriOS.requeue s.machine) (TriOS.requeue s.machine).idleproc = m' :=
        done.inj hs
      have hsame : ((TriOS.requeue s.machine).proc (TriOS.requeue s.machine).idleproc).pid =
          ((TriOS.requeue s.machine).proc (TriOS.requeue s.machine).current).pid →
            (TriOS.requeue s.machine).idleproc = (TriOS.requeue s.machine).current := by
        rw [hpid, hpid, hre.idleproc, hre.current]
        exact fun hc => h.pids _ h.idle _ h.current hc h.idle_pid
      rw [← hrun, procRun_eq _ hsame, ← hre.idleproc]
  | some next =>
      rw [hroot] at hs
      have hmem : next ∈ s.candidates := by
        have := SkewHeap.root_mem hroot
        rwa [h.requeue.1, Finset.mem_val] at this
      have hcand := SchedSys.mem_candidates.1 hmem
      refine Or.inr ⟨next, hmem, rfl, ?_⟩
      have hpk := sameProcs_picked (TriOS.requeue s.machine) next
      have hpid' := (hre.trans hpk).pid
      have hrun : procRun (picked (TriOS.requeue s.machine) next) next = m' := done.inj hs
      rw [← hrun, procRun_eq]
      rw [hpid', hpid', hpk.current, hre.current]
      exact fun hc => h.pids _ hcand.1 _ h.current hc (h.ready_pid _ hcand.1 hcand.2.1)

theorem SchedInv.schedule (h : SchedInv s)
    (hs : TriOS.schedule defaultSchedClass s.machine = done m') : SchedInv ⟨m', s.alive⟩ := by
  have hre := sameProcs_requeue s.machine
  rcases h.schedule_cases hs with ⟨hempty, rfl⟩ | ⟨next, hnext, hroot, rfl⟩
  · have hready : (SchedSys.mk { TriOS.requeue s.machine with current := s.machine.idleproc }
        s.alive).ready = s.candidates := by
      rw [hempty, ← Finset.not_nonempty_iff_eq_empty]
      rintro ⟨p, hp⟩
      rcases SchedSys.mem_ready.1 hp with ⟨halive, hrun, hidle, _⟩
      have hrun' : (s.machine.proc p).state = ProcState.runnable := by
        rw [← hre.state]
        exact hrun
      have hmem : p ∈ s.candidates := SchedSys.mem_candidates.2 ⟨halive, hrun', by
        rw [← hre.idleproc]
        exact hidle⟩
      rw [hempty] at hmem
      cases hmem
    refine h.frame ⟨?_, ?_⟩ rfl ⟨h.idle, h.idle_pid⟩ hre.idleproc hre.pid fun p hp => Or.inl ?_
    · rw [hready]
      exact h.requeue.1
    · rw [hready]
      exact h.requeue.2
    · rw [← hre.state]
      exact hp
  · have hpk := hre.trans (sameProcs_picked (TriOS.requeue s.machine) next)
    have hcand := SchedSys.mem_candidates.1 hnext
    have hready : (SchedSys.mk { picked (TriOS.requeue s.machine) next with current := next }
        s.alive).ready = s.candidates.erase next := by
      ext p
      rw [SchedSys.mem_ready, Finset.mem_erase, SchedSys.mem_candidates]
      change _ ∧ ((picked (TriOS.requeue s.machine) next).proc p).state = _ ∧
        p ≠ (picked (TriOS.requeue s.machine) next).idleproc ∧ p ≠ next ↔ _
      rw [hpk.state, hpk.idleproc]
      tauto
    have hpool : (picked (TriOS.requeue s.machine) next).rq.pool.elements =
        s.candidates.val.erase next := by
      let comp := procStrideCompF ((TriOS.requeue s.machine).setRun next
        { (TriOS.requeue s.machine).runInfo next with
          stride := ((TriOS.requeue s.machine).runInfo next).stride +
            stridePass ((TriOS.requeue s.machine).runInfo next).priority }).runInfo
      have hroot' := @SkewHeap.elements_remove_root _ comp _ _ _ hroot
      rw [h.requeue.1] at hroot'
      rw [hroot', Multiset.erase_cons_head]
      rfl
    refine h.frame ⟨?_, ?_⟩ rfl ⟨hcand.1, h.ready_pid _ hcand.1 hcand.2.1⟩ hpk.idleproc hpk.pid
      fun p hp => Or.inl ?_
    · rw [hready, Finset.erase_val]
      exact hpool
    · rw [hready, Finset.card_erase_of_mem hnext, ← h.requeue.2]
      rfl
    · rw [← hpk.state]
      exact hp

/-! ## The other actions -/

/-- The current process stops to run, or goes on; no other process changes. -/
theorem SchedInv.setState (h : SchedInv s) {v : Proc}
    (hpid : v.pid = (s.machine.proc s.machine.current).pid) (hstate : v.state ≠ ProcState.runnable) :
    SchedInv ⟨s.machine.setProc s.machine.current v, s.alive⟩ := by
  have hother : ∀ p, p ≠ s.machine.current →
      (s.machine.setProc s.machine.current v).proc p = s.machine.proc p := fun p hp =>
    Function.update_of_ne hp _ _
  have hself : (s.machine.setProc s.machine.current v).proc s.machine.current = v :=
    Function.update_self _ _ _
  refine h.frame (h.membership.congr rfl rfl fun p => ?_) rfl (h.current_alive rfl) rfl
    (fun p => ?_) fun p hp => Or.inl ?_
  · by_cases hp : p = s.machine.current
    · simp [Machine.Ready, Machine.setProc, hp]
    · simp only [Machine.Ready, hother p hp]
      rfl
  · by_cases hp : p = s.machine.current
    · rw [hp, hself, hpid]
    · rw [hother p hp]
  · by_cases hpc : p = s.machine.current
    · rw [hpc, hself] at hp
      exact absurd hp hstate
    · rwa [hother p hpc] at hp

theorem SchedInv.alloc (h : SchedInv s) (hp : p ∉ s.alive) (stride priority : UInt32) :
    SchedInv ⟨s.machine.setProc p (allocProc stride priority), insert p s.alive⟩ := by
  have hne : ∀ q ∈ s.alive, q ≠ p := fun q hq hc => hp (hc ▸ hq)
  have hother : ∀ q ∈ s.alive,
      (s.machine.setProc p (allocProc stride priority)).proc q = s.machine.proc q := fun q hq =>
    Function.update_of_ne (hne q hq) _ _
  have hself : (s.machine.setProc p (allocProc stride priority)).proc p =
      allocProc stride priority := Function.update_self _ _ _
  refine ⟨h.membership.congr rfl rfl fun q => ?_, Finset.mem_insert_of_mem h.current,
    Finset.mem_insert_of_mem h.idle, ?_, ?_, fun q hq => ?_, fun q hq r hr => ?_⟩
  · by_cases hqp : q = p
    · subst hqp
      refine ⟨fun hc => ?_, fun hc => absurd hc.1 hp⟩
      have hrun := hc.2.1
      rw [hself] at hrun
      cases hrun
    · simp [Machine.Ready, Machine.setProc, hqp]
  · change ((s.machine.setProc p _).proc s.machine.current).pid ≠ -1
    rw [hother _ h.current]
    exact h.current_pid
  · change ((s.machine.setProc p _).proc s.machine.idleproc).pid ≠ -1
    rw [hother _ h.idle]
    exact h.idle_pid
  · intro hrun
    rcases Finset.mem_insert.1 hq with rfl | hq
    · rw [hself] at hrun
      cases hrun
    · rw [hother q hq] at hrun ⊢
      exact h.ready_pid q hq hrun
  · intro hqr hq1
    rcases Finset.mem_insert.1 hq with rfl | hq
    · rw [hself] at hq1
      exact absurd rfl hq1
    · rcases Finset.mem_insert.1 hr with rfl | hr
      · rw [hqr, hself] at hq1
        exact absurd rfl hq1
      · rw [hother q hq] at hqr hq1
        rw [hother r hr] at hqr
        exact h.pids q hq r hr hqr hq1

theorem SchedInv.setPid (h : SchedInv s) {pid : Int} (hp : p ∈ s.alive)
    (hstate : (s.machine.proc p).state = ProcState.uninit)
    (hfresh : ∀ q ∈ s.alive, q ≠ p → (s.machine.proc q).pid ≠ pid)
    (hcur : p ≠ s.machine.current) (hidle : p ≠ s.machine.idleproc) :
    SchedInv ⟨s.machine.setProc p { s.machine.proc p with pid := pid }, s.alive⟩ := by
  have hother : ∀ q, q ≠ p →
      (s.machine.setProc p { s.machine.proc p with pid := pid }).proc q = s.machine.proc q :=
    fun q hq => Function.update_of_ne hq _ _
  have hself : (s.machine.setProc p { s.machine.proc p with pid := pid }).proc p =
      { s.machine.proc p with pid := pid } := Function.update_self _ _ _
  have hstates : ∀ q, ((s.machine.setProc p { s.machine.proc p with pid := pid }).proc q).state =
      (s.machine.proc q).state := by
    intro q
    by_cases hq : q = p
    · rw [hq, hself]
    · rw [hother q hq]
  refine ⟨h.membership.congr rfl rfl fun q => ?_, h.current, h.idle, ?_, ?_, fun q hq hrun => ?_,
    fun q hq r hr => ?_⟩
  · simp only [Machine.Ready, hstates]
    rfl
  · change ((s.machine.setProc p _).proc s.machine.current).pid ≠ -1
    rw [hother _ hcur.symm]
    exact h.current_pid
  · change ((s.machine.setProc p _).proc s.machine.idleproc).pid ≠ -1
    rw [hother _ hidle.symm]
    exact h.idle_pid
  · rw [hstates] at hrun
    have hqp : q ≠ p := by
      rintro rfl
      rw [hstate] at hrun
      cases hrun
    rw [hother q hqp]
    exact h.ready_pid q hq hrun
  · intro hqr hq1
    by_cases hqp : q = p
    · by_cases hrp : r = p
      · rw [hqp, hrp]
      · rw [hqp, hself, hother r hrp] at hqr
        exact absurd hqr.symm (hfresh r hr hrp)
    · by_cases hrp : r = p
      · rw [hrp, hself, hother q hqp] at hqr
        exact absurd hqr (hfresh q hq hqp)
      · rw [hother q hqp] at hqr hq1
        rw [hother r hrp] at hqr
        exact h.pids q hq r hr hqr hq1

theorem SchedInv.free (h : SchedInv s) (hcur : p ≠ s.machine.current)
    (hidle : p ≠ s.machine.idleproc) (hstate : (s.machine.proc p).state ≠ ProcState.runnable) :
    SchedInv ⟨s.machine, s.alive.erase p⟩ := by
  refine ⟨h.membership.congr rfl rfl fun q => ?_, Finset.mem_erase.2 ⟨hcur.symm, h.current⟩,
    Finset.mem_erase.2 ⟨hidle.symm, h.idle⟩, h.current_pid, h.idle_pid,
    fun q hq => h.ready_pid q (Finset.mem_of_mem_erase hq),
    fun q hq r hr => h.pids q (Finset.mem_of_mem_erase hq) r (Finset.mem_of_mem_erase hr)⟩
  rw [Finset.mem_erase]
  constructor
  · rintro ⟨⟨_, hq⟩, hready⟩
    exact ⟨hq, hready⟩
  · rintro ⟨hq, hready⟩
    refine ⟨⟨?_, hq⟩, hready⟩
    rintro rfl
    exact hstate hready.1

theorem SchedInv.other (h : SchedInv s) {proc : Nat → Proc}
    (hproc : ∀ p, (proc p).state = (s.machine.proc p).state ∧
      (proc p).pid = (s.machine.proc p).pid ∧ (proc p).run = (s.machine.proc p).run) :
    SchedInv ⟨{ s.machine with proc := proc }, s.alive⟩ := by
  refine h.frame (h.membership.congr rfl rfl fun p => ?_) rfl (h.current_alive rfl) rfl
    (fun p => (hproc p).2.1) fun p hp => Or.inl ?_
  · simp only [Machine.Ready, (hproc p).1]
  · exact (hproc p).1.symm.trans hp

theorem SchedInv.step (h : SchedInv s) (hstep : SchedStep s op t) : SchedInv t := by
  cases op with
  | alloc p stride priority =>
      rcases hstep with ⟨hp, rfl⟩
      exact h.alloc hp stride priority
  | setPid p pid =>
      rcases hstep with ⟨⟨hp, hstate, hcur, hidle⟩, hfresh, rfl⟩
      exact h.setPid hp hstate hfresh hcur hidle
  | wakeup p =>
      rcases hstep with ⟨⟨hp, hpid⟩, hwake, halive⟩
      have ht : t = ⟨t.machine, s.alive⟩ := by rw [← halive]
      rw [ht]
      exact h.wakeup hp hpid hwake
  | sleep waitState =>
      have ht : t = _ := hstep
      rw [ht]
      exact h.setState rfl (by simp)
  | exit =>
      have ht : t = _ := hstep
      rw [ht]
      exact h.setState rfl (by simp)
  | schedule =>
      rcases hstep with ⟨hs, halive⟩
      have ht : t = ⟨t.machine, s.alive⟩ := by rw [← halive]
      rw [ht]
      exact h.schedule hs
  | yield =>
      have ht : t = _ := hstep
      rw [ht]
      exact h.sameProcs (sameProcs_setRun _ _ _) rfl rfl
  | tick =>
      have ht : t = _ := hstep
      rw [ht]
      refine h.sameProcs (sameProcs_procTick _ _) ?_ ?_
      all_goals
        unfold schedClassProcTick
        by_cases hidle : s.machine.current ≠ s.machine.idleproc
        · rw [if_pos hidle]
          rfl
        · rw [if_neg hidle]
          rfl
  | setPriority priority =>
      have ht : t = _ := hstep
      rw [ht]
      exact h.sameProcs (sameProcs_setRun _ _ _) rfl rfl
  | free p =>
      rcases hstep with ⟨⟨hcur, hidle⟩, hstate, rfl⟩
      exact h.free hcur hidle hstate
  | other =>
      rcases hstep with ⟨proc, rfl, hproc⟩
      exact h.other hproc

/-- In every run of the scheduler the pool holds the processes that wait for the processor. -/
theorem SchedInv.run {ops : List SchedOp} (h : SchedInv s) (hrun : Run SchedStep s ops t) :
    SchedInv t :=
  hrun.invariant SchedInv (fun _ _ _ hinv hstep => hinv.step hstep) h

end TriOS
