import TriOS.Library.Outcome
import TriOS.Process.Proc

/-!
# sched.c — waking and switching processes

`struct sched_class` is a record of functions, as in the source, over any representation `Q` of the
run queue. `wakeup_proc`, `schedule` and `proc_run` are written over such a class.
-/

namespace TriOS

/-- `struct sched_class`. The queue is given the run fields of all processes; what it stores goes
back to the run fields of one process only. `pickNext` returns `none` for `NULL`. -/
structure SchedClass (Q : Type) where
  init : Q → Q
  enqueue : Q → (Nat → RunInfo) → Nat → Q × RunInfo
  dequeue : Q → (Nat → RunInfo) → Nat → Q
  pickNext : Q → (Nat → RunInfo) → Outcome (Option (Nat × RunInfo))
  procTick : RunInfo → RunInfo

/-- The process descriptors, the variables `current` and `idleproc`, and the run queue. -/
structure Machine (Q : Type) where
  proc : Nat → Proc
  current : Nat
  idleproc : Nat
  rq : Q

variable {Q : Type}

/-- Replace one process descriptor. -/
def Machine.setProc (m : Machine Q) (p : Nat) (v : Proc) : Machine Q :=
  { m with proc := Function.update m.proc p v }

/-- The run fields of all processes. -/
def Machine.runInfo (m : Machine Q) (p : Nat) : RunInfo :=
  (m.proc p).run

/-- Replace the run fields of one process. -/
def Machine.setRun (m : Machine Q) (p : Nat) (r : RunInfo) : Machine Q :=
  m.setProc p { m.proc p with run := r }

/-- `sched_class_enqueue` -/
def schedClassEnqueue (cls : SchedClass Q) (m : Machine Q) (p : Nat) : Machine Q :=
  if p ≠ m.idleproc then
    let (rq, run) := cls.enqueue m.rq m.runInfo p
    { m.setRun p run with rq := rq }
  else m

/-- `sched_class_proc_tick` -/
def schedClassProcTick (cls : SchedClass Q) (m : Machine Q) (p : Nat) : Machine Q :=
  if p ≠ m.idleproc then
    m.setRun p (cls.procTick (m.runInfo p))
  else
    m.setRun p { m.runInfo p with needResched := true }

/-- `wakeup_proc` -/
def wakeupProc (cls : SchedClass Q) (m : Machine Q) (p : Nat) : Outcome (Machine Q) := do
  Outcome.assert ((m.proc p).state ≠ ProcState.zombie)
  if (m.proc p).state ≠ ProcState.runnable then
    let m := m.setProc p { m.proc p with state := ProcState.runnable, waitState := 0 }
    if p ≠ m.current then
      pure (schedClassEnqueue cls m p)
    else pure m
  else pure m

/-- `proc->flags |= PF_EXITING` -/
def Machine.setExiting (m : Machine Q) (p : Nat) : Machine Q :=
  m.setProc p { m.proc p with exiting := true }

/-- `do_kill` once `find_proc` has found `p`; the result is the value it returns. -/
def killProc (cls : SchedClass Q) (m : Machine Q) (p : Nat) : Outcome (Bool × Machine Q) := do
  if (m.proc p).exiting then
    pure (false, m)
  else do
    let m := m.setExiting p
    if interruptible (m.proc p) then do
      let m ← wakeupProc cls m p
      pure (true, m)
    else
      pure (true, m)

/-- `proc_run` -/
def procRun (m : Machine Q) (p : Nat) : Machine Q :=
  if p ≠ m.current then
    if (m.proc p).pid = (m.proc m.current).pid then m else { m with current := p }
  else m

/-- `schedule` -/
def schedule (cls : SchedClass Q) (m : Machine Q) : Outcome (Machine Q) := do
  let m := m.setRun m.current { m.runInfo m.current with needResched := false }
  let m :=
    if (m.proc m.current).state = ProcState.runnable then schedClassEnqueue cls m m.current else m
  match ← cls.pickNext m.rq m.runInfo with
  | some (next, run) =>
      let m := m.setRun next run
      pure (procRun { m with rq := cls.dequeue m.rq m.runInfo next } next)
  | none => pure (procRun m m.idleproc)

variable {cls : SchedClass Q} {m m' : Machine Q} {p q : Nat}

/-! ## What a step leaves alone -/

/-- `m'` is `m` up to the run fields and the run queue. -/
structure SameProcs (m m' : Machine Q) : Prop where
  current : m'.current = m.current
  idleproc : m'.idleproc = m.idleproc
  proc : ∀ p, ∃ r, m'.proc p = { m.proc p with run := r }

theorem SameProcs.refl (m : Machine Q) : SameProcs m m :=
  ⟨rfl, rfl, fun p => ⟨(m.proc p).run, rfl⟩⟩

theorem SameProcs.trans {m'' : Machine Q} (h : SameProcs m m') (h' : SameProcs m' m'') :
    SameProcs m m'' := by
  refine ⟨h'.current.trans h.current, h'.idleproc.trans h.idleproc, fun p => ?_⟩
  rcases h.proc p with ⟨r, hr⟩
  rcases h'.proc p with ⟨r', hr'⟩
  exact ⟨r', by rw [hr', hr]⟩

theorem sameProcs_setRun (m : Machine Q) (p : Nat) (r : RunInfo) : SameProcs m (m.setRun p r) := by
  refine ⟨rfl, rfl, fun q => ?_⟩
  by_cases hq : q = p
  · subst hq
    exact ⟨r, by simp [Machine.setRun, Machine.setProc]⟩
  · exact ⟨(m.proc q).run, by simp [Machine.setRun, Machine.setProc, hq]⟩

theorem sameProcs_enqueue (m : Machine Q) (p : Nat) : SameProcs m (schedClassEnqueue cls m p) := by
  unfold schedClassEnqueue
  by_cases hp : p ≠ m.idleproc
  · have h := sameProcs_setRun m p (cls.enqueue m.rq m.runInfo p).2
    rw [if_pos hp]
    exact ⟨h.current, h.idleproc, h.proc⟩
  · rw [if_neg hp]
    exact SameProcs.refl m

theorem sameProcs_procTick (m : Machine Q) (p : Nat) :
    SameProcs m (schedClassProcTick cls m p) := by
  unfold schedClassProcTick
  by_cases hp : p ≠ m.idleproc
  · rw [if_pos hp]
    exact sameProcs_setRun m p _
  · rw [if_neg hp]
    exact sameProcs_setRun m p _

theorem SameProcs.state (h : SameProcs m m') (p : Nat) :
    (m'.proc p).state = (m.proc p).state := by
  rcases h.proc p with ⟨r, hr⟩
  rw [hr]

theorem SameProcs.waitState (h : SameProcs m m') (p : Nat) :
    (m'.proc p).waitState = (m.proc p).waitState := by
  rcases h.proc p with ⟨r, hr⟩
  rw [hr]

theorem SameProcs.pid (h : SameProcs m m') (p : Nat) : (m'.proc p).pid = (m.proc p).pid := by
  rcases h.proc p with ⟨r, hr⟩
  rw [hr]

/-- `wakeup_proc` of a process that is not a zombie returns, and touches only that process. -/
theorem wakeupProc_spec (cls : SchedClass Q) (hp : (m.proc p).state ≠ ProcState.zombie) :
    ∃ m', wakeupProc cls m p = Outcome.done m' ∧ m'.current = m.current ∧
      m'.idleproc = m.idleproc ∧ (m'.proc p).state = ProcState.runnable ∧
      ((m.proc p).state ≠ ProcState.runnable → (m'.proc p).waitState = 0) ∧
      ((m.proc p).state = ProcState.runnable → m' = m) ∧
      ∀ q, q ≠ p → (m'.proc q).state = (m.proc q).state ∧
        (m'.proc q).waitState = (m.proc q).waitState := by
  have hassert : Outcome.assert ((m.proc p).state ≠ ProcState.zombie) = Outcome.done () :=
    Outcome.assert_of hp
  simp only [wakeupProc, hassert, Outcome.bind_done]
  by_cases hrun : (m.proc p).state = ProcState.runnable
  · exact ⟨m, by simp [hrun], rfl, rfl, hrun, fun hc => absurd hrun hc, fun _ => rfl,
      fun q _ => ⟨rfl, rfl⟩⟩
  · -- The descriptor is changed first; what the class stores does not matter here.
    let m1 := m.setProc p { m.proc p with state := ProcState.runnable, waitState := 0 }
    have hself : m1.proc p = { m.proc p with state := ProcState.runnable, waitState := 0 } := by
      simp [m1, Machine.setProc]
    have hother : ∀ q, q ≠ p → m1.proc q = m.proc q := by
      intro q hq
      simp [m1, Machine.setProc, hq]
    have hsame : ∃ m', (if p ≠ m1.current then pure (schedClassEnqueue cls m1 p) else pure m1) =
        Outcome.done m' ∧ SameProcs m1 m' := by
      by_cases hcur : p ≠ m1.current
      · exact ⟨_, by rw [if_pos hcur]; rfl, sameProcs_enqueue m1 p⟩
      · exact ⟨_, by rw [if_neg hcur]; rfl, SameProcs.refl m1⟩
    rcases hsame with ⟨m', hm', hs⟩
    refine ⟨m', ?_, hs.current, hs.idleproc, ?_, ?_, fun hc => absurd hc hrun, ?_⟩
    · rw [if_pos hrun]
      exact hm'
    · rw [hs.state, hself]
    · intro _
      rw [hs.waitState, hself]
    · intro q hq
      rw [hs.state, hs.waitState, hother q hq]
      exact ⟨rfl, rfl⟩

theorem Machine.setExiting_state (m : Machine Q) (p q : Nat) :
    ((m.setExiting p).proc q).state = (m.proc q).state ∧
      ((m.setExiting p).proc q).waitState = (m.proc q).waitState := by
  by_cases hq : q = p
  · simp [Machine.setExiting, Machine.setProc, hq]
  · simp [Machine.setExiting, Machine.setProc, hq]

/-- `do_kill` does nothing, or sets the flag, or also wakes a process whose wait can be
interrupted. -/
theorem killProc_cases {r : Bool} (h : killProc cls m p = Outcome.done (r, m')) :
    m' = m ∨ m' = m.setExiting p ∨
      (interruptible (m.proc p) ∧ wakeupProc cls (m.setExiting p) p = Outcome.done m') := by
  unfold killProc at h
  by_cases hexit : (m.proc p).exiting = true
  · rw [if_pos hexit] at h
    exact Or.inl (Prod.mk.inj (Outcome.done.inj h)).2.symm
  · rw [if_neg hexit] at h
    have hwait : ((m.setExiting p).proc p).waitState = (m.proc p).waitState :=
      (m.setExiting_state p p).2
    by_cases hint : interruptible ((m.setExiting p).proc p)
    · have hrun : (wakeupProc cls (m.setExiting p) p >>= fun m2 => pure (true, m2)) =
          Outcome.done (r, m') := by
        simpa only [if_pos hint] using h
      rcases Outcome.bind_eq_done.1 hrun with ⟨m2, hwake, hm2⟩
      refine Or.inr (Or.inr ⟨?_, ?_⟩)
      · unfold interruptible at hint ⊢
        rwa [hwait] at hint
      · rw [hwake]
        exact congrArg Outcome.done (Prod.mk.inj (Outcome.done.inj hm2)).2
    · have hdone : (pure (true, m.setExiting p) : Outcome (Bool × Machine Q)) =
          Outcome.done (r, m') := by
        simpa only [if_neg hint] using h
      exact Or.inr (Or.inl (Prod.mk.inj (Outcome.done.inj hdone)).2.symm)

/-- The assertion of `wakeup_proc`. -/
theorem wakeupProc_not_zombie (h : wakeupProc cls m p = Outcome.done m') :
    (m.proc p).state ≠ ProcState.zombie := by
  simp only [wakeupProc, Outcome.bind_eq_done, Outcome.assert_eq_done] at h
  rcases h with ⟨_, hz, _⟩
  exact hz

/-- `do_kill` leaves a process alone whose wait cannot be interrupted, or that is runnable. -/
theorem killProc_frame {r : Bool} (h : killProc cls m p = Outcome.done (r, m')) {q : Nat}
    (hq : ¬ interruptible (m.proc q) ∨ (m.proc q).state = ProcState.runnable) :
    (m'.proc q).state = (m.proc q).state ∧ (m'.proc q).waitState = (m.proc q).waitState := by
  rcases killProc_cases h with rfl | rfl | ⟨hint, hwake⟩
  · exact ⟨rfl, rfl⟩
  · exact m.setExiting_state p q
  · rcases wakeupProc_spec cls (wakeupProc_not_zombie hwake) with
      ⟨m3, hm3, _, _, _, _, hsame, hothers⟩
    rw [hwake] at hm3
    cases hm3
    by_cases hqp : q = p
    · subst hqp
      have hrun := hq.resolve_left (not_not.2 hint)
      rw [hsame ((m.setExiting_state q q).1.trans hrun)]
      exact m.setExiting_state q q
    · rw [(hothers q hqp).1, (hothers q hqp).2]
      exact m.setExiting_state p q

/-- `schedule` changes the current process, the run fields and the run queue, and nothing else. -/
theorem schedule_proc (h : schedule cls m = Outcome.done m') :
    m'.idleproc = m.idleproc ∧ ∀ p, ∃ r, m'.proc p = { m.proc p with run := r } := by
  let m1 := m.setRun m.current { m.runInfo m.current with needResched := false }
  let m2 := if (m1.proc m1.current).state = ProcState.runnable then
    schedClassEnqueue cls m1 m1.current else m1
  have h1 : SameProcs m m1 := sameProcs_setRun m _ _
  have h2 : SameProcs m m2 := by
    by_cases hc : (m1.proc m1.current).state = ProcState.runnable
    · simp only [m2, if_pos hc]
      exact h1.trans (sameProcs_enqueue m1 _)
    · simp only [m2, if_neg hc]
      exact h1
  have hrun : ∀ (n : Machine Q) (q : Nat),
      (procRun n q).idleproc = n.idleproc ∧ (procRun n q).proc = n.proc := by
    intro n q
    unfold procRun
    by_cases hq : q ≠ n.current
    · rw [if_pos hq]
      by_cases hpid : (n.proc q).pid = (n.proc n.current).pid
      · simp [hpid]
      · simp [hpid]
    · simp [hq]
  have hs : (cls.pickNext m2.rq m2.runInfo >>= fun r => match r with
      | some (next, run) =>
          pure (procRun { m2.setRun next run with
            rq := cls.dequeue (m2.setRun next run).rq (m2.setRun next run).runInfo next } next)
      | none => pure (procRun m2 m2.idleproc)) = Outcome.done m' := h
  rcases Outcome.bind_eq_done.1 hs with ⟨r, _, hr⟩
  cases r with
  | none =>
      have hm' := (Outcome.done.inj hr).symm
      subst hm'
      rw [(hrun _ _).1, (hrun _ _).2]
      exact ⟨h2.idleproc, h2.proc⟩
  | some r =>
      have hm' := (Outcome.done.inj hr).symm
      subst hm'
      rw [(hrun _ _).1, (hrun _ _).2]
      have h3 := h2.trans (sameProcs_setRun m2 r.1 r.2)
      exact ⟨h3.idleproc, h3.proc⟩

end TriOS
