import TriOS.Library.Transition
import TriOS.Schedule.Stride
import TriOS.Sync.Monitor

/-!
# Runs of a monitor

Any number of processes enter the monitor, wait and signal inside it, and leave it; whenever a
process is runnable it may be switched to. One token goes around: it is the value of `mutex`, the
process that is active in the monitor, or a process that has been handed a unit and has not gone on
yet.
-/

namespace TriOS

open CircularList Outcome Transition

/-- Where a process is: outside the monitor, active in it, or in the call of `down` in which it
enters, waits to go on after a signal, or waits on a condition variable. -/
inductive MonitorPc where
  | outside
  | active
  | entering (w : Nat)
  | signalling (w : Nat)
  | waiting (cv w : Nat)
  deriving DecidableEq, Repr

/-- The semaphore and the wait of the call of `down`. -/
def MonitorPc.inDown (mt : Monitor) : MonitorPc → Option (Nat × Nat)
  | outside => none
  | active => none
  | entering w => some (mt.mutex, w)
  | signalling w => some (mt.next, w)
  | waiting cv w => some (mt.cvSem cv, w)

/-- A monitor and the processes that use it. -/
structure MonitorSys (Q : Type) where
  st : MonitorState Q
  pc : Nat → MonitorPc

variable {Q : Type}

/-- The processes in the middle of `down`. -/
def MonitorSys.inDown (s : MonitorSys Q) (mt : Monitor) (p : Nat) : Option (Nat × Nat) :=
  (s.pc p).inDown mt

/-- The actions of a process `p`. A signal carries the process that it woke; a process that goes on
in `down` carries the condition variable if it waited on one. -/
inductive MonitorOp where
  | enter (p : Nat)
  | signal (p cv : Nat) (woken : Option Nat)
  | wait (p cv : Nat)
  | leave (p : Nat)
  | resume (p : Nat) (cv : Option Nat)
  | switch (p : Nat)
  | kill (p : Nat)
  | other
  deriving DecidableEq, Repr

/-- `p` is the current process, and it is not asleep. -/
def Runs (s : MonitorSys Q) (p : Nat) : Prop :=
  s.st.sync.machine.current = p ∧ (s.st.sync.machine.proc p).state = ProcState.runnable

/-- The wait is used by nobody: it is a new variable on the stack of the current process. -/
def UnusedWait (mt : Monitor) (s : MonitorSys Q) (w : Nat) : Prop :=
  ∀ p sem, s.inDown mt p ≠ some (sem, w)

/-- The process that a signal of `cv` will wake. -/
def firstWaiter (mt : Monitor) (s : MonitorSys Q) (cv : Nat) : Option Nat :=
  (waitQueueFirst s.st.sync.waits (mt.cvSem cv)).map fun w => (s.st.sync.waits.wait w).proc

/-- The second half of `down`, and of the function it is called in, for a process that was woken. -/
def monitorResume (mt : Monitor) (s : MonitorState Q) : MonitorPc → Outcome (MonitorState Q)
  | MonitorPc.entering w => do
      let sync ← downResume s.sync mt.mutex w
      pure { s with sync := sync }
  | MonitorPc.signalling w => do
      let sync ← downResume s.sync mt.next w
      pure (condSignalEnd { s with sync := sync })
  | MonitorPc.waiting cv w => do
      let sync ← downResume s.sync (mt.cvSem cv) w
      pure (condWaitEnd { s with sync := sync } cv)
  | MonitorPc.outside => Outcome.panic
  | MonitorPc.active => Outcome.panic

/-- The condition variable on which a process waits. -/
def MonitorPc.cv : MonitorPc → Option Nat
  | waiting cv _ => some cv
  | _ => none

/-- One action. -/
def MonitorStep (cls : SchedClass Q) (mt : Monitor) (s : MonitorSys Q) (op : MonitorOp)
    (t : MonitorSys Q) : Prop :=
  match op with
  | MonitorOp.enter p =>
      Runs s p ∧ s.pc p = MonitorPc.outside ∧ ∃ w blocked, UnusedWait mt s w ∧
        enterMonitor mt s.st w = done (blocked, t.st) ∧
        t.pc = Function.update s.pc p
          (if blocked then MonitorPc.entering w else MonitorPc.active)
  | MonitorOp.signal p cv woken =>
      Runs s p ∧ s.pc p = MonitorPc.active ∧ ∃ w blocked, UnusedWait mt s w ∧
        condSignal cls mt s.st cv w = done (blocked, t.st) ∧
        t.pc = Function.update s.pc p
          (if blocked then MonitorPc.signalling w else MonitorPc.active) ∧
        woken = if s.st.count cv > 0 then firstWaiter mt s cv else none
  | MonitorOp.wait p cv =>
      Runs s p ∧ s.pc p = MonitorPc.active ∧ ∃ w blocked, UnusedWait mt s w ∧
        condWait cls mt s.st cv w = done (blocked, t.st) ∧
        t.pc = Function.update s.pc p
          (if blocked then MonitorPc.waiting cv w else MonitorPc.active)
  | MonitorOp.leave p =>
      Runs s p ∧ s.pc p = MonitorPc.active ∧ leaveMonitor cls mt s.st = done t.st ∧
        t.pc = Function.update s.pc p MonitorPc.outside
  | MonitorOp.resume p cv =>
      Runs s p ∧ monitorResume mt s.st (s.pc p) = done t.st ∧ cv = (s.pc p).cv ∧
        t.pc = Function.update s.pc p MonitorPc.active
  | MonitorOp.switch p =>
      (s.st.sync.machine.proc p).state = ProcState.runnable ∧ t.pc = s.pc ∧
        ∃ m, t.st = { s.st with sync := { s.st.sync with machine := m } } ∧ m.current = p ∧
          ∀ q, (m.proc q).state = (s.st.sync.machine.proc q).state ∧
            (m.proc q).waitState = (s.st.sync.machine.proc q).waitState
  | MonitorOp.kill p =>
      t.pc = s.pc ∧ ∃ r m, killProc cls s.st.sync.machine p = done (r, m) ∧
        t.st = { s.st with sync := { s.st.sync with machine := m } }
  | MonitorOp.other =>
      t.pc = s.pc ∧ ∃ m, t.st = { s.st with sync := { s.st.sync with machine := m } } ∧
        ∀ q, s.inDown mt q ≠ none →
          (m.proc q).state = (s.st.sync.machine.proc q).state ∧
            (m.proc q).waitState = (s.st.sync.machine.proc q).waitState

/-! ## The token -/

/-- `p` is active in the monitor, or has been handed a unit with which it will be. -/
def Holds (mt : Monitor) (pc : Nat → MonitorPc) (queue : Nat → List Nat) (p : Nat) : Prop :=
  pc p = MonitorPc.active ∨ ∃ sem, Handed (fun q => (pc q).inDown mt) queue sem p

/-- The token is free, or exactly one process holds it. If it is free then no signaller waits. -/
def Token (mt : Monitor) (s : MonitorSys Q) (queue : Nat → List Nat) : Prop :=
  (s.st.sync.value mt.mutex = 1 ∧ s.st.nextCount = 0 ∧ queue mt.mutex = [] ∧
      ∀ p, ¬ Holds mt s.pc queue p) ∨
    (s.st.sync.value mt.mutex = 0 ∧ ∃ h, ∀ p, Holds mt s.pc queue p ↔ p = h)

/-- The process is blocked on `next` in a signal, or about to go on from it. -/
def MonitorPc.Signals (x : MonitorPc) : Prop :=
  ∃ w, x = signalling w

/-- The process waits on the condition variable, or is about to go on from it. -/
def MonitorPc.WaitsOn (cv : Nat) (x : MonitorPc) : Prop :=
  ∃ w, x = waiting cv w

/-- The invariant of the monitor. -/
structure MonitorInv (mt : Monitor) (s : MonitorSys Q) (queue : Nat → List Nat) : Prop where
  waiting : Waiting s.st.sync (s.inDown mt) queue
  next_zero : s.st.sync.value mt.next = 0
  cv_zero : ∀ cv, s.st.sync.value (mt.cvSem cv) = 0
  signallers : Counts (fun p => (s.pc p).Signals) s.st.nextCount
  waiters : ∀ cv, Counts (fun p => (s.pc p).WaitsOn cv) (s.st.count cv)
  token : Token mt s queue

variable {cls : SchedClass Q} {mt : Monitor} {s t : MonitorSys Q} {queue : Nat → List Nat}
  {pc : Nat → MonitorPc} {x : MonitorPc} {sem w p q cv : Nat} {ws : List Nat} {n : Int}

theorem inDown_update (pc : Nat → MonitorPc) (p : Nat) (x : MonitorPc) :
    (fun q => (Function.update pc p x q).inDown mt) =
      Function.update (fun q => (pc q).inDown mt) p (x.inDown mt) := by
  funext q
  by_cases hq : q = p
  · simp [hq]
  · simp [hq]

/-- A process that becomes active, and holds the token then. -/
theorem holds_setActive : Holds mt (Function.update pc p MonitorPc.active) queue q ↔
    q = p ∨ Holds mt pc queue q := by
  unfold Holds
  rw [inDown_update]
  by_cases hq : q = p
  · simp [hq]
  · have hnone : MonitorPc.active.inDown mt = none := rfl
    rw [hnone]
    simp [hq, handed_resume]

/-- A process that leaves the monitor holds no token. -/
theorem holds_setOutside (hp : s.pc p = MonitorPc.active) :
    Holds mt (Function.update s.pc p MonitorPc.outside) queue q ↔
      q ≠ p ∧ Holds mt s.pc queue q := by
  unfold Holds
  rw [inDown_update]
  have hnone : MonitorPc.outside.inDown mt = none := rfl
  rw [hnone]
  by_cases hq : q = p
  · subst hq
    simp [handed_resume]
  · simp [hq, handed_resume]

/-- A process that blocks in `down` holds no token. -/
theorem holds_block (hx : x.inDown mt = some (sem, w)) (hp : (pc p).inDown mt = none)
    (hfresh : ∀ q sem', (pc q).inDown mt ≠ some (sem', w)) :
    Holds mt (Function.update pc p x) (Function.update queue sem (queue sem ++ [w])) q ↔
      q ≠ p ∧ Holds mt pc queue q := by
  have hactive : x ≠ MonitorPc.active := by
    rintro rfl
    cases hx
  have hnot : ∀ sem', ¬ Handed (fun q => (pc q).inDown mt) queue sem' p := by
    rintro sem' ⟨w', hw', _⟩
    have hnone : (pc p).inDown mt = some (sem', w') := hw'
    rw [hp] at hnone
    cases hnone
  unfold Holds
  rw [inDown_update, hx]
  have hdown : ∀ sem', Handed (Function.update (fun q => (pc q).inDown mt) p (some (sem, w)))
      (Function.update queue sem (queue sem ++ [w])) sem' q ↔
        Handed (fun q => (pc q).inDown mt) queue sem' q := fun sem' =>
    handed_down hp hfresh sem' q
  simp only [hdown]
  by_cases hq : q = p
  · subst hq
    simp [hactive, hnot]
  · simp [hq]

/-- `up` hands the token to the first waiter. -/
theorem holds_up (h : Waiting s.st.sync (s.inDown mt) queue) (hq : queue sem = w :: ws) :
    Holds mt s.pc (Function.update queue sem ws) q ↔
      Holds mt s.pc queue q ∨ q = (s.st.sync.waits.wait w).proc := by
  have hup : ∀ sem', Handed (fun r => (s.pc r).inDown mt) (Function.update queue sem ws) sem' q ↔
      Handed (fun r => (s.pc r).inDown mt) queue sem' q ∨
        (sem' = sem ∧ q = (s.st.sync.waits.wait w).proc) := fun sem' => h.handed_up hq sem' q
  unfold Holds
  simp only [hup, exists_or, exists_eq_left, or_assoc]

/-- What a change of one process does to the number of processes of a kind. -/
theorem counts_update (K : MonitorPc → Prop) (h : Counts (fun q => K (pc q)) n) :
    ((K x ↔ K (pc p)) → Counts (fun q => K (Function.update pc p x q)) n) ∧
      (K x → ¬ K (pc p) → Counts (fun q => K (Function.update pc p x q)) (n + 1)) ∧
        (¬ K x → K (pc p) → Counts (fun q => K (Function.update pc p x q)) (n - 1)) := by
  refine ⟨fun hiff => h.congr fun q => ?_, fun hx hp => h.insert hp fun q => ?_,
    fun hx hp => h.erase hp fun q => ?_⟩
  all_goals
    by_cases hq : q = p
    · subst hq
      simp_all
    · simp [hq]

theorem MonitorInv.holder (h : MonitorInv mt s queue) (hp : Holds mt s.pc queue p) :
    s.st.sync.value mt.mutex = 0 ∧ ∀ q, Holds mt s.pc queue q ↔ q = p := by
  rcases h.token with ⟨_, _, _, hnone⟩ | ⟨hv, r, hr⟩
  · exact absurd hp (hnone p)
  · have hpr : p = r := (hr p).1 hp
    subst hpr
    exact ⟨hv, hr⟩

/-- While one process is active, the others that are inside `down` are all in a queue. -/
theorem MonitorInv.mem_queue (h : MonitorInv mt s queue) (hp : s.pc p = MonitorPc.active)
    (hq : s.inDown mt q = some (sem, w)) : w ∈ queue sem := by
  by_contra hnot
  have hholds : Holds mt s.pc queue q := Or.inr ⟨sem, w, hq, hnot⟩
  have hqp : q = p := ((h.holder (Or.inl hp)).2 q).1 hholds
  rw [hqp, MonitorSys.inDown, hp] at hq
  cases hq

/-- The state after the active process `p` has passed the token on: to `r`, or back to `mutex`. -/
structure Released (mt : Monitor) (s : MonitorSys Q) (queue : Nat → List Nat) (p : Nat)
    (sync : Sync Q) (queue' : Nat → List Nat) : Prop where
  current : sync.machine.current = s.st.sync.machine.current
  proc : ∀ v, (sync.waits.wait v).proc = (s.st.sync.waits.wait v).proc
  waiting : Waiting sync (s.inDown mt) queue'
  next_zero : sync.value mt.next = 0
  cv_zero : ∀ cv, sync.value (mt.cvSem cv) = 0
  cv_queue : ∀ cv, queue' (mt.cvSem cv) = queue (mt.cvSem cv)
  token : (sync.value mt.mutex = 1 ∧ s.st.nextCount = 0 ∧ queue' mt.mutex = [] ∧
      ∀ q, Holds mt s.pc queue' q ↔ q = p) ∨
    (sync.value mt.mutex = 0 ∧ ∃ r, r ≠ p ∧ ∀ q, Holds mt s.pc queue' q ↔ q = p ∨ q = r)

/-- An `up` with a waiter passes the token on, if the waiter is not on a condition variable. -/
theorem MonitorInv.pass (cls : SchedClass Q) (h : MonitorInv mt s queue)
    (hp : s.pc p = MonitorPc.active) (hcv : ∀ cv, mt.cvSem cv ≠ sem) (hq : queue sem = w :: ws) :
    ∃ sync, up cls s.st.sync sem = done sync ∧
      Released mt s queue p sync (Function.update queue sem ws) := by
  rcases h.holder (Or.inl hp) with ⟨hmutex, hholds⟩
  rcases up_of_cons cls h.waiting hq with ⟨sync, hup, hval, hcur, hproc, _, _, hwaiting⟩
  have hin := h.waiting.queued sem w (by simp [hq])
  refine ⟨sync, hup, hcur, hproc, hwaiting, ?_, ?_, ?_,
    Or.inr ⟨?_, (s.st.sync.waits.wait w).proc, ?_, fun q => ?_⟩⟩
  · rw [hval]
    exact h.next_zero
  · intro cv
    rw [hval]
    exact h.cv_zero cv
  · intro cv
    rw [Function.update_of_ne (hcv cv)]
  · rw [hval]
    exact hmutex
  · intro hc
    rw [hc, MonitorSys.inDown, hp] at hin
    cases hin
  · rw [holds_up h.waiting hq, hholds]

/-- The code at the end of a routine passes the token on: to a signaller, else to a process that
enters, else back to `mutex`. -/
theorem MonitorInv.release (cls : SchedClass Q) (h : MonitorInv mt s queue)
    (hp : s.pc p = MonitorPc.active) :
    ∃ sync queue', up cls s.st.sync (if s.st.nextCount > 0 then mt.next else mt.mutex) = done sync ∧
      Released mt s queue p sync queue' := by
  by_cases hnext : s.st.nextCount > 0
  · -- Somebody waits in a signal, and not for its turn to go on.
    rw [if_pos hnext]
    rcases h.signallers.exists_of_pos hnext with ⟨q, w, hq⟩
    have hmem : w ∈ queue mt.next := by
      refine h.mem_queue (q := q) hp ?_
      rw [MonitorSys.inDown, hq]
      rfl
    cases hqueue : queue mt.next with
    | nil =>
        rw [hqueue] at hmem
        cases hmem
    | cons w ws =>
        rcases h.pass cls hp mt.cvSem_ne_next hqueue with ⟨sync, hup, hrel⟩
        exact ⟨sync, _, hup, hrel⟩
  · rw [if_neg hnext]
    cases hqueue : queue mt.mutex with
    | cons w ws =>
        rcases h.pass cls hp mt.cvSem_ne_mutex hqueue with ⟨sync, hup, hrel⟩
        exact ⟨sync, _, hup, hrel⟩
    | nil =>
        rcases h.holder (Or.inl hp) with ⟨hmutex, hholds⟩
        have hzero : s.st.nextCount = 0 := by
          have := h.signallers.nonneg
          omega
        have hone : toInt (s.st.sync.value mt.mutex + 1) = 1 := by
          rw [hmutex]
          decide
        have hup := up_of_nil cls h.waiting hqueue
        rw [hone] at hup
        refine ⟨_, queue, hup, rfl, fun v => rfl, h.waiting.congr rfl fun q _ => ⟨rfl, rfl⟩,
          ?_, ?_, fun cv => rfl, Or.inl ⟨?_, hzero, hqueue, hholds⟩⟩
        · simp [mt.next_ne, h.next_zero]
        · intro cv
          simp [mt.cvSem_ne_mutex, h.cv_zero]
        · simp

/-! ## The actions -/

theorem MonitorInv.leave (cls : SchedClass Q) (h : MonitorInv mt s queue)
    (hp : s.pc p = MonitorPc.active) :
    ∃ st queue', leaveMonitor cls mt s.st = done st ∧
      (∀ v, (st.sync.waits.wait v).proc = (s.st.sync.waits.wait v).proc) ∧
      (∀ cv, queue' (mt.cvSem cv) = queue (mt.cvSem cv)) ∧
      MonitorInv mt ⟨st, Function.update s.pc p MonitorPc.outside⟩ queue' := by
  rcases h.release cls hp with ⟨sync, queue', hup, hrel⟩
  have hin : (fun q => (Function.update s.pc p MonitorPc.outside q).inDown mt) = s.inDown mt := by
    rw [inDown_update]
    have hnone : (s.pc p).inDown mt = none := by
      rw [hp]
      rfl
    exact Function.update_eq_self_iff.2 hnone.symm
  refine ⟨{ s.st with sync := sync }, queue', ?_, hrel.proc, hrel.cv_queue, ?_, hrel.next_zero,
    hrel.cv_zero, ?_, ?_, ?_⟩
  · simp only [leaveMonitor, hup, bind_done, pure_eq_done]
  · change Waiting sync (fun q => (Function.update s.pc p MonitorPc.outside q).inDown mt) queue'
    rw [hin]
    exact hrel.waiting
  · exact (counts_update MonitorPc.Signals h.signallers).1 (by simp [MonitorPc.Signals, hp])
  · intro cv
    exact (counts_update (MonitorPc.WaitsOn cv) (h.waiters cv)).1 (by simp [MonitorPc.WaitsOn, hp])
  · rcases hrel.token with ⟨hv, hzero, hnil, hholds⟩ | ⟨hv, r, hr, hholds⟩
    · refine Or.inl ⟨hv, hzero, hnil, fun q hq => ?_⟩
      have hq' := (holds_setOutside hp).1 hq
      exact hq'.1 ((hholds q).1 hq'.2)
    · refine Or.inr ⟨hv, r, fun q => ?_⟩
      refine (holds_setOutside hp).trans ?_
      rw [hholds]
      constructor
      · rintro ⟨hne, hq⟩
        exact hq.resolve_left hne
      · rintro rfl
        exact ⟨hr, Or.inr rfl⟩

/-- A process blocks in `down` on a semaphore without units. -/
theorem block_down {sync : Sync Q} (hw : Waiting sync (fun q => (pc q).inDown mt) queue)
    (hv : sync.value sem = 0) (hcur : sync.machine.current = p) (hp : (pc p).inDown mt = none)
    (hx : x.inDown mt = some (sem, w)) (hfresh : ∀ q sem', (pc q).inDown mt ≠ some (sem', w)) :
    ∃ sync', down sync sem w = done (true, sync') ∧ sync'.value = sync.value ∧
      (sync'.waits.wait w).proc = p ∧
      (∀ v, v ≠ w → (sync'.waits.wait v).proc = (sync.waits.wait v).proc) ∧
      Waiting sync' (fun q => (Function.update pc p x q).inDown mt)
        (Function.update queue sem (queue sem ++ [w])) := by
  subst hcur
  have hneg : ¬ 0 < sync.value sem := by omega
  rcases down_of_not_pos hw hneg hp hfresh with
    ⟨sync', hdown, hval, _, hproc, hothers, _, hwaiting⟩
  refine ⟨sync', hdown, hval, hproc, hothers, ?_⟩
  rw [inDown_update, hx]
  exact hwaiting

theorem MonitorInv.enter (h : MonitorInv mt s queue) (hcur : s.st.sync.machine.current = p)
    (hp : s.pc p = MonitorPc.outside) (hfresh : UnusedWait mt s w) :
    ∃ blocked st queue', enterMonitor mt s.st w = done (blocked, st) ∧
      (∀ v, v ≠ w → (st.sync.waits.wait v).proc = (s.st.sync.waits.wait v).proc) ∧
      (∀ cv, queue' (mt.cvSem cv) = queue (mt.cvSem cv)) ∧
      MonitorInv mt ⟨st, Function.update s.pc p
        (if blocked then MonitorPc.entering w else MonitorPc.active)⟩ queue' := by
  have hnone : (s.pc p).inDown mt = none := by
    rw [hp]
    rfl
  rcases h.token with ⟨hv, hzero, hnil, hholds⟩ | ⟨hv, r, hholds⟩
  · -- The monitor is free: `p` takes the token.
    have hpos : 0 < s.st.sync.value mt.mutex := by omega
    have hval : toInt (s.st.sync.value mt.mutex - 1) = 0 := by
      rw [hv]
      decide
    have hdown := down_of_pos (w := w) hpos
    rw [hval] at hdown
    refine ⟨false, { s.st with sync := { s.st.sync with
      value := Function.update s.st.sync.value mt.mutex 0 } }, queue, ?_, fun v _ => rfl,
      fun cv => rfl, ?_, ?_, ?_, ?_, ?_, ?_⟩
    · simp only [enterMonitor, hdown, bind_done, pure_eq_done]
    · change Waiting _ (fun q => (Function.update s.pc p MonitorPc.active q).inDown mt) queue
      have hsame : Function.update (fun q => (s.pc q).inDown mt) p (MonitorPc.active.inDown mt) =
          s.inDown mt := Function.update_eq_self_iff.2 hnone.symm
      rw [inDown_update, hsame]
      exact h.waiting.congr rfl fun q _ => ⟨rfl, rfl⟩
    · simp [mt.next_ne, h.next_zero]
    · intro cv
      simp [mt.cvSem_ne_mutex, h.cv_zero]
    · exact (counts_update MonitorPc.Signals h.signallers).1 (by simp [MonitorPc.Signals, hp])
    · intro cv
      exact (counts_update (MonitorPc.WaitsOn cv) (h.waiters cv)).1
        (by simp [MonitorPc.WaitsOn, hp])
    · refine Or.inr ⟨by simp, p, fun q => ?_⟩
      refine holds_setActive.trans ?_
      simp [hholds]
  · -- Somebody has the token: `p` waits for `mutex`.
    rcases block_down (x := MonitorPc.entering w) h.waiting hv hcur hnone rfl hfresh with
      ⟨sync', hdown, hval, _, hothers, hwaiting⟩
    refine ⟨true, { s.st with sync := sync' },
      Function.update queue mt.mutex (queue mt.mutex ++ [w]), ?_, hothers, ?_, hwaiting, ?_, ?_,
      ?_, ?_, ?_⟩
    · simp only [enterMonitor, hdown, bind_done, pure_eq_done]
    · intro cv
      rw [Function.update_of_ne (mt.cvSem_ne_mutex cv)]
    · change sync'.value _ = 0
      rw [hval]
      exact h.next_zero
    · intro cv
      change sync'.value _ = 0
      rw [hval]
      exact h.cv_zero cv
    · exact (counts_update MonitorPc.Signals h.signallers).1 (by simp [MonitorPc.Signals, hp])
    · intro cv
      exact (counts_update (MonitorPc.WaitsOn cv) (h.waiters cv)).1
        (by simp [MonitorPc.WaitsOn, hp])
    · have hpr : p ≠ r := by
        intro hc
        rcases (hholds p).2 hc with ha | ⟨sem, w', hw', _⟩
        · rw [hp] at ha
          cases ha
        · have hw'' : (s.pc p).inDown mt = some (sem, w') := hw'
          rw [hnone] at hw''
          cases hw''
      refine Or.inr ⟨by change sync'.value _ = 0; rw [hval]; exact hv, r, fun q => ?_⟩
      refine (holds_block (x := MonitorPc.entering w) rfl hnone hfresh).trans ?_
      rw [hholds]
      constructor
      · exact fun hq => hq.2
      · rintro rfl
        exact ⟨hpr.symm, rfl⟩

theorem MonitorInv.wait (cls : SchedClass Q) (h : MonitorInv mt s queue)
    (hcur : s.st.sync.machine.current = p) (hp : s.pc p = MonitorPc.active)
    (hfresh : UnusedWait mt s w) (cv : Nat) :
    ∃ st queue', condWait cls mt s.st cv w = done (true, st) ∧
      (∀ v, v ≠ w → (st.sync.waits.wait v).proc = (s.st.sync.waits.wait v).proc) ∧
      (st.sync.waits.wait w).proc = p ∧
      (∀ cv', queue' (mt.cvSem cv') =
        if cv' = cv then queue (mt.cvSem cv) ++ [w] else queue (mt.cvSem cv')) ∧
      MonitorInv mt ⟨st, Function.update s.pc p (MonitorPc.waiting cv w)⟩ queue' := by
  have hnone : (s.pc p).inDown mt = none := by
    rw [hp]
    rfl
  rcases h.release cls hp with ⟨sync, queue', hup, hrel⟩
  rcases block_down (x := MonitorPc.waiting cv w) hrel.waiting (hrel.cv_zero cv)
    (hrel.current.trans hcur) hnone rfl hfresh with ⟨sync', hdown, hval, hproc, hothers, hwaiting⟩
  refine ⟨⟨sync', s.st.nextCount, Function.update s.st.count cv (s.st.count cv + 1)⟩,
    Function.update queue' (mt.cvSem cv) (queue' (mt.cvSem cv) ++ [w]), ?_, ?_, hproc, ?_,
    hwaiting, ?_, ?_, ?_, ?_, ?_⟩
  · simp only [condWait, leaveMonitor, hup, hdown, bind_done, pure_eq_done, if_true]
  · intro v hv
    rw [hothers v hv]
    exact hrel.proc v
  · intro cv'
    by_cases hc : cv' = cv
    · subst hc
      rw [Function.update_self, hrel.cv_queue, if_pos rfl]
    · rw [Function.update_of_ne fun he => hc (mt.cvSem_inj _ _ he), hrel.cv_queue, if_neg hc]
  · change sync'.value _ = 0
    rw [hval]
    exact hrel.next_zero
  · intro cv'
    change sync'.value _ = 0
    rw [hval]
    exact hrel.cv_zero cv'
  · exact (counts_update MonitorPc.Signals h.signallers).1 (by simp [MonitorPc.Signals, hp])
  · intro cv'
    change Counts _ (Function.update s.st.count cv (s.st.count cv + 1) cv')
    by_cases hc : cv' = cv
    · subst hc
      rw [Function.update_self]
      exact (counts_update (MonitorPc.WaitsOn cv') (h.waiters cv')).2.1 ⟨w, rfl⟩
        (by simp [MonitorPc.WaitsOn, hp])
    · rw [Function.update_of_ne hc]
      exact (counts_update (MonitorPc.WaitsOn cv') (h.waiters cv')).1
        (by simp [MonitorPc.WaitsOn, hp, Ne.symm hc])
  · have hblock : ∀ q, Holds mt (Function.update s.pc p (MonitorPc.waiting cv w))
        (Function.update queue' (mt.cvSem cv) (queue' (mt.cvSem cv) ++ [w])) q ↔
          q ≠ p ∧ Holds mt s.pc queue' q := fun q =>
      holds_block (x := MonitorPc.waiting cv w) rfl hnone hfresh
    rcases hrel.token with ⟨hv, hzero, hnil, hholds⟩ | ⟨hv, r, hr, hholds⟩
    · refine Or.inl ⟨by change sync'.value _ = 1; rw [hval]; exact hv, hzero, ?_, fun q hq => ?_⟩
      · rw [Function.update_of_ne (mt.cvSem_ne_mutex cv).symm]
        exact hnil
      · have hq' := (hblock q).1 hq
        exact hq'.1 ((hholds q).1 hq'.2)
    · refine Or.inr ⟨by change sync'.value _ = 0; rw [hval]; exact hv, r, fun q => ?_⟩
      refine (hblock q).trans ?_
      rw [hholds]
      constructor
      · rintro ⟨hne, hq⟩
        exact hq.resolve_left hne
      · rintro rfl
        exact ⟨hr, Or.inr rfl⟩

/-- A signal of a condition without waiters does nothing. -/
theorem condSignal_of_not_pos (hc : ¬ s.st.count cv > 0) :
    condSignal cls mt s.st cv w = done (false, s.st) := by
  simp only [condSignal, if_neg hc, pure_eq_done]

/-- A signal of a condition with a waiter hands the token to the first one, and the signaller
blocks. -/
theorem MonitorInv.signal (cls : SchedClass Q) (h : MonitorInv mt s queue)
    (hcur : s.st.sync.machine.current = p) (hp : s.pc p = MonitorPc.active)
    (hfresh : UnusedWait mt s w) (hcount : s.st.count cv > 0) :
    ∃ st queue' v ws, condSignal cls mt s.st cv w = done (true, st) ∧
      queue (mt.cvSem cv) = v :: ws ∧ v ≠ w ∧
      (∀ v, v ≠ w → (st.sync.waits.wait v).proc = (s.st.sync.waits.wait v).proc) ∧
      (∀ cv', queue' (mt.cvSem cv') = if cv' = cv then ws else queue (mt.cvSem cv')) ∧
      MonitorInv mt ⟨st, Function.update s.pc p (MonitorPc.signalling w)⟩ queue' ∧
      ∀ q, Holds mt (Function.update s.pc p (MonitorPc.signalling w)) queue' q ↔
        q = (s.st.sync.waits.wait v).proc := by
  have hnone : (s.pc p).inDown mt = none := by
    rw [hp]
    rfl
  rcases h.holder (Or.inl hp) with ⟨hmutex, hholds⟩
  rcases (h.waiters cv).exists_of_pos hcount with ⟨q, u, hq⟩
  have hmem : u ∈ queue (mt.cvSem cv) := by
    refine h.mem_queue (q := q) hp ?_
    rw [MonitorSys.inDown, hq]
    rfl
  cases hqueue : queue (mt.cvSem cv) with
  | nil =>
      rw [hqueue] at hmem
      cases hmem
  | cons v ws =>
      have hin := h.waiting.queued (mt.cvSem cv) v (by simp [hqueue])
      rcases up_of_cons cls h.waiting hqueue with
        ⟨sync, hup, hval, hcur', hproc, _, _, hwaiting⟩
      have hnext : sync.value mt.next = 0 := by
        rw [hval]
        exact h.next_zero
      rcases block_down (x := MonitorPc.signalling w) hwaiting hnext (hcur'.trans hcur) hnone rfl
        hfresh with ⟨sync', hdown, hval', _, hothers, hwaiting'⟩
      have hvalue : sync'.value = s.st.sync.value := hval'.trans hval
      have hvw : v ≠ w := fun hc => hfresh _ _ (hc ▸ hin)
      have hpv : p ≠ (s.st.sync.waits.wait v).proc := by
        intro hc
        rw [← hc, MonitorSys.inDown, hnone] at hin
        cases hin
      have htoken : ∀ q, Holds mt (Function.update s.pc p (MonitorPc.signalling w))
          (Function.update (Function.update queue (mt.cvSem cv) ws) mt.next
            (Function.update queue (mt.cvSem cv) ws mt.next ++ [w])) q ↔
              q = (s.st.sync.waits.wait v).proc := by
        intro q
        refine (holds_block (x := MonitorPc.signalling w) rfl hnone hfresh).trans ?_
        rw [holds_up h.waiting hqueue, hholds]
        constructor
        · rintro ⟨hne, hq⟩
          exact hq.resolve_left hne
        · rintro rfl
          exact ⟨hpv.symm, Or.inr rfl⟩
      refine ⟨⟨sync', s.st.nextCount + 1, s.st.count⟩, _, v, ws, ?_, rfl, hvw, ?_, ?_,
        ⟨hwaiting', ?_, ?_, ?_, ?_, Or.inr ⟨?_, _, htoken⟩⟩, htoken⟩
      · simp only [condSignal, if_pos hcount, hup, hdown, bind_done, pure_eq_done, if_true]
      · intro v' hv'
        rw [hothers v' hv']
        exact hproc v'
      · intro cv'
        rw [Function.update_of_ne (mt.cvSem_ne_next cv')]
        by_cases hc : cv' = cv
        · subst hc
          rw [Function.update_self, if_pos rfl]
        · rw [Function.update_of_ne fun he => hc (mt.cvSem_inj _ _ he), if_neg hc]
      · change sync'.value _ = 0
        rw [hvalue]
        exact h.next_zero
      · intro cv'
        change sync'.value _ = 0
        rw [hvalue]
        exact h.cv_zero cv'
      · exact (counts_update MonitorPc.Signals h.signallers).2.1 ⟨w, rfl⟩
          (by simp [MonitorPc.Signals, hp])
      · intro cv'
        exact (counts_update (MonitorPc.WaitsOn cv') (h.waiters cv')).1
          (by simp [MonitorPc.WaitsOn, hp])
      · change sync'.value _ = 0
        rw [hvalue]
        exact hmutex

/-- A process that was woken goes on in the monitor: it is the holder of the token, and stays it. -/
theorem MonitorInv.resume (h : MonitorInv mt s queue) (hrun : Runs s p)
    (hp : s.inDown mt p ≠ none) :
    ∃ st, monitorResume mt s.st (s.pc p) = done st ∧ st.sync = s.st.sync ∧
      Holds mt s.pc queue p ∧
      MonitorInv mt ⟨st, Function.update s.pc p MonitorPc.active⟩ queue := by
  rcases Option.ne_none_iff_exists'.1 hp with ⟨⟨sem, w⟩, hsw⟩
  have hnot : w ∉ queue sem := by
    intro hc
    have hsleep := (h.waiting.asleep p sem w hsw hc).1
    rw [hrun.2] at hsleep
    cases hsleep
  have hholds : Holds mt s.pc queue p := Or.inr ⟨sem, w, hsw, hnot⟩
  rcases h.holder hholds with ⟨hmutex, honly⟩
  rcases downResume_of_handed h.waiting hsw hnot with ⟨hdown, hwaiting⟩
  have hwaiting' : Waiting s.st.sync
      (fun q => (Function.update s.pc p MonitorPc.active q).inDown mt) queue := by
    rw [inDown_update]
    exact hwaiting
  have htoken : ∀ q, Holds mt (Function.update s.pc p MonitorPc.active) queue q ↔ q = p := by
    intro q
    refine holds_setActive.trans ?_
    rw [honly]
    simp
  -- The three places at which a process can be inside `down`.
  cases hpc : s.pc p with
  | outside =>
      rw [MonitorSys.inDown, hpc] at hp
      exact absurd rfl hp
  | active =>
      rw [MonitorSys.inDown, hpc] at hp
      exact absurd rfl hp
  | entering u =>
      have hu : sem = mt.mutex ∧ w = u := by
        rw [MonitorSys.inDown, hpc] at hsw
        cases hsw
        exact ⟨rfl, rfl⟩
      rcases hu with ⟨rfl, rfl⟩
      refine ⟨s.st, ?_, rfl, hholds, hwaiting', h.next_zero, h.cv_zero, ?_, ?_,
        Or.inr ⟨hmutex, p, htoken⟩⟩
      · simp only [monitorResume, hdown, bind_done, pure_eq_done]
      · exact (counts_update MonitorPc.Signals h.signallers).1 (by simp [MonitorPc.Signals, hpc])
      · intro cv
        exact (counts_update (MonitorPc.WaitsOn cv) (h.waiters cv)).1
          (by simp [MonitorPc.WaitsOn, hpc])
  | signalling u =>
      have hu : sem = mt.next ∧ w = u := by
        rw [MonitorSys.inDown, hpc] at hsw
        cases hsw
        exact ⟨rfl, rfl⟩
      rcases hu with ⟨rfl, rfl⟩
      refine ⟨condSignalEnd s.st, ?_, rfl, hholds, hwaiting', h.next_zero, h.cv_zero, ?_, ?_,
        Or.inr ⟨hmutex, p, htoken⟩⟩
      · simp only [monitorResume, hdown, bind_done, pure_eq_done]
      · exact (counts_update MonitorPc.Signals h.signallers).2.2 (by simp [MonitorPc.Signals])
          ⟨w, hpc⟩
      · intro cv
        exact (counts_update (MonitorPc.WaitsOn cv) (h.waiters cv)).1
          (by simp [MonitorPc.WaitsOn, hpc])
  | waiting cv u =>
      have hu : sem = mt.cvSem cv ∧ w = u := by
        rw [MonitorSys.inDown, hpc] at hsw
        cases hsw
        exact ⟨rfl, rfl⟩
      rcases hu with ⟨rfl, rfl⟩
      refine ⟨condWaitEnd s.st cv, ?_, rfl, hholds, hwaiting', h.next_zero, h.cv_zero, ?_, ?_,
        Or.inr ⟨hmutex, p, htoken⟩⟩
      · simp only [monitorResume, hdown, bind_done, pure_eq_done]
      · exact (counts_update MonitorPc.Signals h.signallers).1 (by simp [MonitorPc.Signals, hpc])
      · intro cv'
        change Counts _ (Function.update s.st.count cv (s.st.count cv - 1) cv')
        by_cases hc : cv' = cv
        · subst hc
          rw [Function.update_self]
          exact (counts_update (MonitorPc.WaitsOn cv') (h.waiters cv')).2.2
            (by simp [MonitorPc.WaitsOn]) ⟨w, hpc⟩
        · rw [Function.update_of_ne hc]
          exact (counts_update (MonitorPc.WaitsOn cv') (h.waiters cv')).1
            (by simp [MonitorPc.WaitsOn, hpc, Ne.symm hc])

/-- What the rest of the machine does is of no concern to the monitor. -/
theorem MonitorInv.machine (h : MonitorInv mt s queue) {m : Machine Q}
    (hproc : ∀ q, s.inDown mt q ≠ none →
      (m.proc q).state = (s.st.sync.machine.proc q).state ∧
        (m.proc q).waitState = (s.st.sync.machine.proc q).waitState) :
    MonitorInv mt ⟨{ s.st with sync := { s.st.sync with machine := m } }, s.pc⟩ queue :=
  ⟨h.waiting.congr rfl hproc, h.next_zero, h.cv_zero, h.signallers, h.waiters, h.token⟩

/-! ## The history of a condition variable -/

/-- The process that begins to wait on `cv`. -/
def MonitorOp.waits (cv : Nat) : MonitorOp → Option Nat
  | wait p cv' => if cv' = cv then some p else none
  | _ => none

/-- The process that a signal of `cv` wakes. -/
def MonitorOp.wakes (cv : Nat) : MonitorOp → Option Nat
  | signal _ cv' woken => if cv' = cv then woken else none
  | _ => none

/-- The process that goes on from its wait on `cv`. -/
def MonitorOp.resumes (cv : Nat) : MonitorOp → Option Nat
  | resume p (some cv') => if cv' = cv then some p else none
  | _ => none

/-- `p` waits on `cv` and has been woken, but has not gone on yet. -/
def PendingOn (mt : Monitor) (pc : Nat → MonitorPc) (queue : Nat → List Nat) (cv p : Nat) : Prop :=
  ∃ w, pc p = MonitorPc.waiting cv w ∧ w ∉ queue (mt.cvSem cv)

/-- The processes of the waits in a list. -/
def waiters (s : MonitorSys Q) (ws : List Nat) : List Nat :=
  ws.map fun w => (s.st.sync.waits.wait w).proc

/-- The processes that waited on `cv` were woken in the order in which they began to wait, and went
on in this order, each once; `pending` are those that are between the two. -/
structure Ledger (mt : Monitor) (s : MonitorSys Q) (queue : Nat → List Nat) (ops : List MonitorOp)
    (cv : Nat) (pending : List Nat) : Prop where
  waited : ops.filterMap (MonitorOp.waits cv) =
    ops.filterMap (MonitorOp.wakes cv) ++ waiters s (queue (mt.cvSem cv))
  woken : ops.filterMap (MonitorOp.wakes cv) = ops.filterMap (MonitorOp.resumes cv) ++ pending
  nodup : pending.Nodup
  mem : ∀ p, p ∈ pending ↔ PendingOn mt s.pc queue cv p

variable {op : MonitorOp} {ops : List MonitorOp} {queue' : Nat → List Nat} {pend pend' : List Nat}

theorem Ledger.step (h : Ledger mt s queue ops cv pend)
    (hqueue : waiters s (queue (mt.cvSem cv)) ++ (op.waits cv).toList =
      (op.wakes cv).toList ++ waiters t (queue' (mt.cvSem cv)))
    (hpend : pend ++ (op.wakes cv).toList = (op.resumes cv).toList ++ pend')
    (hnodup : pend'.Nodup) (hmem : ∀ p, p ∈ pend' ↔ PendingOn mt t.pc queue' cv p) :
    Ledger mt t queue' (ops ++ [op]) cv pend' := by
  have hlast : ∀ f : MonitorOp → Option Nat,
      (ops ++ [op]).filterMap f = ops.filterMap f ++ (f op).toList := by
    intro f
    rw [List.filterMap_append]
    cases hf : f op with
    | none => simp [hf]
    | some x => simp [hf]
  refine ⟨?_, ?_, hnodup, hmem⟩
  · rw [hlast, hlast, h.waited, List.append_assoc, List.append_assoc, hqueue]
  · rw [hlast, hlast, h.woken, List.append_assoc, List.append_assoc, hpend]

/-- An action that concerns neither the queue nor the waiters of `cv`. -/
theorem Ledger.frame (h : Ledger mt s queue ops cv pend) (hwaits : op.waits cv = none)
    (hwakes : op.wakes cv = none) (hresumes : op.resumes cv = none)
    (hqueue : queue' (mt.cvSem cv) = queue (mt.cvSem cv))
    (hproc : ∀ w ∈ queue (mt.cvSem cv),
      (t.st.sync.waits.wait w).proc = (s.st.sync.waits.wait w).proc)
    (hpc : ∀ p w, t.pc p = MonitorPc.waiting cv w ↔ s.pc p = MonitorPc.waiting cv w) :
    Ledger mt t queue' (ops ++ [op]) cv pend := by
  have hsame : waiters t (queue' (mt.cvSem cv)) = waiters s (queue (mt.cvSem cv)) := by
    rw [hqueue]
    exact List.map_congr_left hproc
  refine h.step ?_ ?_ h.nodup fun p => ?_
  · simp [hwaits, hwakes, hsame]
  · simp [hwakes, hresumes]
  · rw [h.mem]
    unfold PendingOn
    simp only [hpc, hqueue]

theorem PendingOn.holds (h : PendingOn mt pc queue cv p) : Holds mt pc queue p := by
  rcases h with ⟨w, hw, hnot⟩
  refine Or.inr ⟨mt.cvSem cv, w, ?_, hnot⟩
  change (pc p).inDown mt = _
  rw [hw]
  rfl

theorem PendingOn.not_active (h : PendingOn mt pc queue cv p) : pc p ≠ MonitorPc.active := by
  rcases h with ⟨w, hw, _⟩
  rw [hw]
  exact MonitorPc.noConfusion

/-- While a process is active, nobody is pending. -/
theorem MonitorInv.not_pendingOn (h : MonitorInv mt s queue) (hp : s.pc p = MonitorPc.active)
    (q : Nat) : ¬ PendingOn mt s.pc queue cv q := by
  intro hq
  have hqp := ((h.holder (Or.inl hp)).2 q).1 hq.holds
  exact hq.not_active (hqp ▸ hp)

theorem MonitorInv.pending_nil (h : MonitorInv mt s queue) (hp : s.pc p = MonitorPc.active)
    (hl : Ledger mt s queue ops cv pend) : pend = [] :=
  List.eq_nil_iff_forall_not_mem.2 fun q hq => h.not_pendingOn hp q ((hl.mem q).1 hq)

end TriOS
