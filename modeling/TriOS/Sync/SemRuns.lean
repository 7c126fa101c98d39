import TriOS.Library.Transition
import TriOS.Schedule.Stride
import TriOS.Sync.Sem

/-!
# Runs of semaphores

Any number of processes use any number of semaphores; a process is switched to whenever it is
runnable. The actions of a run carry what they did, so that the history of a semaphore (who waited,
who was woken, which units were taken) is a function of the run.
-/

namespace TriOS

open CircularList Outcome Transition

/-- The semaphores, and the processes that are in the middle of `down`: `inDown p = some (sem, w)`
if `p` has called `schedule` in `down(sem)` with its wait `w`. -/
structure SemSys (Q : Type) where
  sync : Sync Q
  inDown : Nat → Option (Nat × Nat)

/-- The actions of the current process on a semaphore, with their results, and the actions of the
rest of the machine. -/
inductive SemOp where
  /-- `up`, and the process that it woke. -/
  | up (sem : Nat) (woken : Option Nat)
  /-- `down`, and the process if it has to wait. -/
  | down (sem : Nat) (waiting : Option Nat)
  /-- A process that was woken goes on in `down`. -/
  | resume (sem proc : Nat)
  | tryDown (sem : Nat) (taken : Bool)
  | switch (proc : Nat)
  | kill (proc : Nat)
  | other
  deriving DecidableEq, Repr

variable {Q : Type}

/-- The current process runs, and is not in the middle of `down`. -/
def Ready (s : SemSys Q) : Prop :=
  (s.sync.machine.proc s.sync.machine.current).state = ProcState.runnable ∧
    s.inDown s.sync.machine.current = none

/-- The wait is used by nobody: it is a new variable on the stack of the current process. -/
def FreshWait (s : SemSys Q) (w : Nat) : Prop :=
  ∀ p sem, s.inDown p ≠ some (sem, w)

/-- One action. A switch goes to any runnable process. What the rest of the machine does is
arbitrary, up to the semaphores and the processes inside `down`. -/
def SemStep (cls : SchedClass Q) (s : SemSys Q) (op : SemOp) (t : SemSys Q) : Prop :=
  let current := s.sync.machine.current
  match op with
  | SemOp.up sem woken =>
      Ready s ∧ up cls s.sync sem = done t.sync ∧ t.inDown = s.inDown ∧
        woken = (waitQueueFirst s.sync.waits sem).map fun w => (s.sync.waits.wait w).proc
  | SemOp.down sem waiting =>
      Ready s ∧ ∃ w, FreshWait s w ∧
        ((down s.sync sem w = done (false, t.sync) ∧ t.inDown = s.inDown ∧ waiting = none) ∨
          (down s.sync sem w = done (true, t.sync) ∧
            t.inDown = Function.update s.inDown current (some (sem, w)) ∧ waiting = some current))
  | SemOp.resume sem proc =>
      (s.sync.machine.proc current).state = ProcState.runnable ∧ proc = current ∧
        ∃ w, s.inDown current = some (sem, w) ∧ downResume s.sync sem w = done t.sync ∧
          t.inDown = Function.update s.inDown current none
  | SemOp.tryDown sem taken =>
      Ready s ∧ tryDown s.sync sem = (taken, t.sync) ∧ t.inDown = s.inDown
  | SemOp.switch proc =>
      (s.sync.machine.proc proc).state = ProcState.runnable ∧ t.inDown = s.inDown ∧
        t.sync.value = s.sync.value ∧ t.sync.waits = s.sync.waits ∧
        t.sync.machine.current = proc ∧
        ∀ p, (t.sync.machine.proc p).state = (s.sync.machine.proc p).state ∧
          (t.sync.machine.proc p).waitState = (s.sync.machine.proc p).waitState
  | SemOp.kill proc =>
      t.inDown = s.inDown ∧ t.sync.value = s.sync.value ∧ t.sync.waits = s.sync.waits ∧
        ∃ r, killProc cls s.sync.machine proc = done (r, t.sync.machine)
  | SemOp.other =>
      t.inDown = s.inDown ∧ t.sync.value = s.sync.value ∧ t.sync.waits = s.sync.waits ∧
        ∀ p, s.inDown p ≠ none →
          (t.sync.machine.proc p).state = (s.sync.machine.proc p).state ∧
            (t.sync.machine.proc p).waitState = (s.sync.machine.proc p).waitState

/-- A call of `schedule` that ends with a runnable process is a switch. -/
theorem semStep_schedule {cls : SchedClass Q} {s : SemSys Q} {m : Machine Q}
    (h : schedule cls s.sync.machine = done m)
    (hrun : (m.proc m.current).state = ProcState.runnable) :
    SemStep cls s (SemOp.switch m.current) { s with sync := { s.sync with machine := m } } := by
  have hproc : ∀ p, (m.proc p).state = (s.sync.machine.proc p).state ∧
      (m.proc p).waitState = (s.sync.machine.proc p).waitState := by
    intro p
    rcases (schedule_proc h).2 p with ⟨r, hr⟩
    rw [hr]
    exact ⟨rfl, rfl⟩
  refine ⟨?_, rfl, rfl, rfl, rfl, hproc⟩
  rw [← (hproc m.current).1]
  exact hrun

/-! ## The history of a semaphore -/

/-- The semaphore of an action. -/
def SemOp.sem : SemOp → Option Nat
  | SemOp.up sem _ => some sem
  | SemOp.down sem _ => some sem
  | SemOp.resume sem _ => some sem
  | SemOp.tryDown sem _ => some sem
  | SemOp.switch _ => none
  | SemOp.kill _ => none
  | SemOp.other => none

/-- The action is an `up`. -/
def SemOp.isUp : SemOp → Bool
  | SemOp.up _ _ => true
  | _ => false

/-- The action takes a unit without waiting. -/
def SemOp.takes : SemOp → Bool
  | SemOp.down _ none => true
  | SemOp.tryDown _ true => true
  | _ => false

/-- The process that begins to wait. -/
def SemOp.waits : SemOp → Option Nat
  | SemOp.down _ p => p
  | _ => none

/-- The process that is woken. -/
def SemOp.wakes : SemOp → Option Nat
  | SemOp.up _ p => p
  | _ => none

/-- The process that goes on after it was woken. -/
def SemOp.resumes : SemOp → Option Nat
  | SemOp.resume _ p => some p
  | _ => none

/-- The actions on one semaphore. -/
def opsOn (sem : Nat) (ops : List SemOp) : List SemOp :=
  ops.filter fun op => op.sem == some sem

/-- The number of `up`s on a semaphore. -/
def ups (sem : Nat) (ops : List SemOp) : Nat :=
  (opsOn sem ops).countP SemOp.isUp

/-- The number of units taken without waiting. -/
def taken (sem : Nat) (ops : List SemOp) : Nat :=
  (opsOn sem ops).countP SemOp.takes

/-- The processes that began to wait, in order. -/
def waited (sem : Nat) (ops : List SemOp) : List Nat :=
  (opsOn sem ops).filterMap SemOp.waits

/-- The processes that were woken, in order. -/
def woken (sem : Nat) (ops : List SemOp) : List Nat :=
  (opsOn sem ops).filterMap SemOp.wakes

/-- The processes that went on after they were woken, in order. -/
def resumed (sem : Nat) (ops : List SemOp) : List Nat :=
  (opsOn sem ops).filterMap SemOp.resumes

theorem opsOn_snoc_of_eq {sem : Nat} {ops : List SemOp} {op : SemOp} (h : op.sem = some sem) :
    opsOn sem (ops ++ [op]) = opsOn sem ops ++ [op] := by
  simp [opsOn, h]

theorem opsOn_snoc_of_ne {sem : Nat} {ops : List SemOp} {op : SemOp} (h : op.sem ≠ some sem) :
    opsOn sem (ops ++ [op]) = opsOn sem ops := by
  simp [opsOn, h]

/-- The bookkeeping of one semaphore over a run from the value `v`: `queue` are the processes that
wait, `pending` those that were woken and have not gone on yet. -/
structure Accounts (v : Int) (sem : Nat) (ops : List SemOp) (value : Int)
    (queue pending : List Nat) : Prop where
  nonneg : 0 ≤ value
  small : value ≤ intMax
  noWaiter : 0 < value → queue = []
  fifo : waited sem ops = woken sem ops ++ queue
  once : List.Perm (woken sem ops) (resumed sem ops ++ pending)
  units : v + ups sem ops = value + (taken sem ops + (resumed sem ops).length) + pending.length

variable {v value : Int} {sem p : Nat} {ops : List SemOp} {op : SemOp} {queue pending : List Nat}

theorem Accounts.start (h0 : 0 ≤ v) (h1 : v ≤ intMax) : Accounts v sem [] v [] [] := by
  refine ⟨h0, h1, fun _ => rfl, rfl, List.Perm.refl _, ?_⟩
  simp [ups, taken, resumed, opsOn]

theorem Accounts.other (h : Accounts v sem ops value queue pending) (hop : op.sem ≠ some sem) :
    Accounts v sem (ops ++ [op]) value queue pending := by
  have hsame := @opsOn_snoc_of_ne sem ops op hop
  refine ⟨h.nonneg, h.small, h.noWaiter, ?_, ?_, ?_⟩
  · have := h.fifo
    unfold waited woken at this ⊢
    rw [hsame]
    exact this
  · have := h.once
    unfold woken resumed at this ⊢
    rw [hsame]
    exact this
  · have := h.units
    unfold ups taken resumed at this ⊢
    rw [hsame]
    exact this

/-- What an action on the semaphore has to do: waits are added behind the queue and woken from its
front, and the units add up. -/
theorem Accounts.step {value' : Int} {queue' pending' : List Nat}
    (h : Accounts v sem ops value queue pending) (hsem : op.sem = some sem)
    (h0 : 0 ≤ value') (h1 : value' ≤ intMax) (hnone : 0 < value' → queue' = [])
    (hqueue : queue ++ op.waits.toList = op.wakes.toList ++ queue')
    (hpending : List.Perm (pending ++ op.wakes.toList) (op.resumes.toList ++ pending'))
    (hunits : value + op.isUp.toNat + pending.length =
      value' + op.takes.toNat + op.resumes.toList.length + pending'.length) :
    Accounts v sem (ops ++ [op]) value' queue' pending' := by
  have hone := @opsOn_snoc_of_eq sem ops op hsem
  have hlast : ∀ f : SemOp → Option Nat, (opsOn sem (ops ++ [op])).filterMap f =
      (opsOn sem ops).filterMap f ++ (f op).toList := by
    intro f
    rw [hone, List.filterMap_append]
    cases hf : f op with
    | none => simp [hf]
    | some x => simp [hf]
  have hcount : ∀ f : SemOp → Bool, (opsOn sem (ops ++ [op])).countP f =
      (opsOn sem ops).countP f + (f op).toNat := by
    intro f
    rw [hone, List.countP_append]
    cases hf : f op with
    | false => simp [hf]
    | true => simp [hf]
  refine ⟨h0, h1, hnone, ?_, ?_, ?_⟩
  · have hfifo := h.fifo
    unfold waited woken at hfifo ⊢
    rw [hlast, hlast, hfifo, List.append_assoc, List.append_assoc, hqueue]
  · have honce := h.once
    unfold woken resumed at honce ⊢
    rw [hlast, hlast]
    refine (honce.append_right _).trans ?_
    rw [List.append_assoc, List.append_assoc]
    exact hpending.append_left _
  · have hsum := h.units
    unfold ups taken resumed at hsum ⊢
    rw [hlast, hcount, hcount, List.length_append]
    push_cast
    omega

/-! ## The invariant of a run -/

variable {cls : SchedClass Q} {s t : SemSys Q} {v : Nat → Int} {waits pend : Nat → List Nat}

/-- The processes that wait in a queue. -/
def procs (s : SemSys Q) (ws : List Nat) : List Nat :=
  ws.map fun w => (s.sync.waits.wait w).proc

/-- The invariant: the waits in the queues are those of sleeping processes, the other processes
inside `down` are pending, and the accounts of every semaphore are in order. -/
structure SemInv (v : Nat → Int) (ops : List SemOp) (s : SemSys Q) (waits pend : Nat → List Nat) :
    Prop where
  waiting : Waiting s.sync s.inDown waits
  nodup : ∀ sem, (pend sem).Nodup
  mem_pend : ∀ sem p, p ∈ pend sem ↔ Handed s.inDown waits sem p
  accounts : ∀ sem,
    Accounts (v sem) sem ops (s.sync.value sem) (procs s (waits sem)) (pend sem)

/-- An `up` of a semaphore with the largest value and no waiter: the value cannot grow. -/
def UpOverflows (s : SemSys Q) : SemOp → Prop
  | SemOp.up sem _ => waitQueueFirst s.sync.waits sem = none ∧ s.sync.value sem = intMax
  | _ => False

/-- An action on one semaphore that changes no queue. -/
theorem SemInv.setValue {sem : Nat} (h : SemInv v ops s waits pend) (x : Int)
    (hsem : op.sem = some sem) (hin : t.inDown = s.inDown)
    (hvalue : t.sync.value = Function.update s.sync.value sem x)
    (hwaits : t.sync.waits = s.sync.waits) (hmachine : t.sync.machine = s.sync.machine)
    (hacc : Accounts (v sem) sem (ops ++ [op]) x (procs s (waits sem)) (pend sem)) :
    SemInv v (ops ++ [op]) t waits pend := by
  refine ⟨?_, h.nodup, ?_, ?_⟩
  · rw [hin]
    exact h.waiting.congr hwaits fun p _ => by simp [hmachine]
  · rw [hin]
    exact h.mem_pend
  · intro sem'
    have hprocs : procs t (waits sem') = procs s (waits sem') := by
      simp [procs, hwaits]
    rw [hprocs, hvalue]
    by_cases hne : sem' = sem
    · subst hne
      rw [Function.update_self]
      exact hacc
    · rw [Function.update_of_ne hne]
      exact (h.accounts sem').other (by simpa [hsem] using Ne.symm hne)

/-- An action on no semaphore that leaves the processes inside `down` as they are. -/
theorem SemInv.frame (h : SemInv v ops s waits pend) (hsem : op.sem = none)
    (hin : t.inDown = s.inDown) (hvalue : t.sync.value = s.sync.value)
    (hwaits : t.sync.waits = s.sync.waits)
    (hproc : ∀ p, s.inDown p ≠ none →
      (t.sync.machine.proc p).state = (s.sync.machine.proc p).state ∧
        (t.sync.machine.proc p).waitState = (s.sync.machine.proc p).waitState) :
    SemInv v (ops ++ [op]) t waits pend := by
  refine ⟨?_, h.nodup, ?_, ?_⟩
  · rw [hin]
    exact h.waiting.congr hwaits hproc
  · rw [hin]
    exact h.mem_pend
  · intro sem
    have hprocs : procs t (waits sem) = procs s (waits sem) := by
      simp [procs, hwaits]
    rw [hprocs, hvalue]
    exact (h.accounts sem).other (by simp [hsem])

theorem SemInv.up {woken : Option Nat} {sem : Nat} (h : SemInv v ops s waits pend)
    (hok : ¬ UpOverflows s (SemOp.up sem woken)) (hstep : SemStep cls s (SemOp.up sem woken) t) :
    ∃ waits' pend', SemInv v (ops ++ [SemOp.up sem woken]) t waits' pend' := by
  rcases hstep with ⟨_, hup, hin, hwoken⟩
  have hfirst := h.waiting.first sem
  cases hq : waits sem with
  | nil =>
      rw [up_of_nil cls h.waiting hq] at hup
      have hs := (done.inj hup).symm
      rw [hq] at hfirst
      have hnone : woken = none := by
        rw [hwoken, hfirst]
        rfl
      subst hnone
      have hacc := h.accounts sem
      have h0 := hacc.nonneg
      have hlt : s.sync.value sem < intMax := by
        have hne : s.sync.value sem ≠ intMax := fun hc => hok ⟨hfirst, hc⟩
        have := hacc.small
        omega
      have hval : toInt (s.sync.value sem + 1) = s.sync.value sem + 1 :=
        toInt_eq (by omega) (by omega)
      rw [hval] at hs
      have hprocs : procs s (waits sem) = [] := by
        simp [procs, hq]
      refine ⟨waits, pend, h.setValue _ rfl hin (by rw [hs]) (by rw [hs]) (by rw [hs]) ?_⟩
      rw [hprocs] at hacc ⊢
      refine hacc.step rfl (by omega) (by omega) (fun _ => rfl) rfl ?_ ?_
      · simp [SemOp.wakes, SemOp.resumes]
      · simp [SemOp.isUp, SemOp.takes, SemOp.resumes]
  | cons w ws =>
      rcases up_of_cons cls h.waiting hq with ⟨s', hs', hval, _, hproc, _, _, hwaiting⟩
      rw [hs'] at hup
      have hs := (done.inj hup).symm
      subst hs
      rw [hq] at hfirst
      have hsome : woken = some (s.sync.waits.wait w).proc := by
        rw [hwoken, hfirst]
        rfl
      subst hsome
      have hprocs : ∀ us, procs t us = procs s us := by
        intro us
        simp [procs, hproc]
      have hnotpend : (s.sync.waits.wait w).proc ∉ pend sem := by
        rw [h.mem_pend]
        exact h.waiting.not_handed_first hq sem
      refine ⟨Function.update waits sem ws,
        Function.update pend sem (pend sem ++ [(s.sync.waits.wait w).proc]), ?_, ?_, ?_, ?_⟩
      · rw [hin]
        exact hwaiting
      · intro sem'
        by_cases hne : sem' = sem
        · subst hne
          rw [Function.update_self]
          rw [← List.concat_eq_append]
          exact (h.nodup sem').concat hnotpend
        · rw [Function.update_of_ne hne]
          exact h.nodup sem'
      · intro sem' p
        rw [hin, h.waiting.handed_up hq]
        by_cases hne : sem' = sem
        · subst hne
          rw [Function.update_self, List.mem_append, h.mem_pend, List.mem_singleton]
          simp
        · rw [Function.update_of_ne hne, h.mem_pend]
          simp [hne]
      · intro sem'
        rw [hval, hprocs]
        by_cases hne : sem' = sem
        · subst hne
          have hacc := h.accounts sem'
          have hold : procs s (waits sem') = (s.sync.waits.wait w).proc :: procs s ws := by
            simp [procs, hq]
          rw [hold] at hacc
          rw [Function.update_self, Function.update_self]
          refine hacc.step rfl hacc.nonneg hacc.small ?_ ?_ ?_ ?_
          · exact fun hv => absurd (hacc.noWaiter hv) (by simp)
          · simp [SemOp.waits, SemOp.wakes]
          · simp [SemOp.wakes, SemOp.resumes]
          · simp [SemOp.isUp, SemOp.takes, SemOp.resumes]
            omega
        · rw [Function.update_of_ne hne, Function.update_of_ne hne]
          exact (h.accounts sem').other (by simpa [SemOp.sem] using Ne.symm hne)

/-- A unit is taken by `down` or `try_down` without waiting. -/
theorem SemInv.take {sem : Nat} (h : SemInv v ops s waits pend) (hv : 0 < s.sync.value sem)
    (hsem : op.sem = some sem) (htakes : op.takes = true) (hup : op.isUp = false)
    (hwaits : op.waits = none) (hwakes : op.wakes = none) (hres : op.resumes = none)
    (hin : t.inDown = s.inDown)
    (ht : t.sync =
      { s.sync with value := Function.update s.sync.value sem (toInt (s.sync.value sem - 1)) }) :
    SemInv v (ops ++ [op]) t waits pend := by
  have hacc := h.accounts sem
  have hsmall := hacc.small
  have hval : toInt (s.sync.value sem - 1) = s.sync.value sem - 1 :=
    toInt_eq (by omega) (by omega)
  rw [hval] at ht
  refine h.setValue _ hsem hin (by rw [ht]) (by rw [ht]) (by rw [ht]) ?_
  refine hacc.step hsem (by omega) (by omega) (fun _ => hacc.noWaiter hv) ?_ ?_ ?_
  · simp [hwaits, hwakes]
  · simp [hwakes, hres]
  · simp [hup, htakes, hres]

theorem SemInv.down {sem : Nat} {waiting : Option Nat} (h : SemInv v ops s waits pend)
    (hstep : SemStep cls s (SemOp.down sem waiting) t) :
    ∃ waits' pend', SemInv v (ops ++ [SemOp.down sem waiting]) t waits' pend' := by
  rcases hstep with ⟨⟨_, hcur⟩, w, hfresh, hdown⟩
  by_cases hv : 0 < s.sync.value sem
  · rw [down_of_pos hv] at hdown
    rcases hdown with ⟨hdone, hin, rfl⟩ | ⟨hdone, _⟩
    · have ht := (Prod.mk.inj (done.inj hdone)).2.symm
      exact ⟨waits, pend, h.take hv rfl rfl rfl rfl rfl rfl hin ht⟩
    · exact absurd (Prod.mk.inj (done.inj hdone)).1 (by simp)
  · rcases down_of_not_pos h.waiting hv hcur hfresh with
      ⟨s', hs', hval, hcur', hproc, hothers, hmach, hwaiting⟩
    rw [hs'] at hdown
    rcases hdown with ⟨hdone, _⟩ | ⟨hdone, hin, rfl⟩
    · exact absurd (Prod.mk.inj (done.inj hdone)).1 (by simp)
    · have ht := (Prod.mk.inj (done.inj hdone)).2.symm
      have hnot : ∀ sem', w ∉ waits sem' := fun sem' hc =>
        hfresh _ sem' (h.waiting.queued sem' w hc)
      have hprocs : ∀ us, w ∉ us → procs t us = procs s us := by
        intro us hus
        refine List.map_congr_left fun u hu => ?_
        rw [ht]
        exact hothers u fun hc => hus (hc ▸ hu)
      refine ⟨Function.update waits sem (waits sem ++ [w]), pend, ?_, h.nodup, ?_, ?_⟩
      · rw [hin, ht]
        exact hwaiting
      · intro sem' p
        rw [h.mem_pend, hin, handed_down hcur hfresh]
      · intro sem'
        have hval' : t.sync.value = s.sync.value := by
          rw [ht]
          exact hval
        rw [hval']
        by_cases hne : sem' = sem
        · subst hne
          have hacc := h.accounts sem'
          have hlast : procs t (waits sem' ++ [w]) =
              procs s (waits sem') ++ [s.sync.machine.current] := by
            have hfront := hprocs (waits sem') (hnot sem')
            unfold procs at hfront ⊢
            rw [List.map_append, hfront, ht]
            simp [hproc]
          rw [Function.update_self, hlast]
          refine hacc.step rfl hacc.nonneg hacc.small (fun hc => absurd hc hv) ?_ ?_ ?_
          · simp [SemOp.waits, SemOp.wakes]
          · simp [SemOp.wakes, SemOp.resumes]
          · simp [SemOp.isUp, SemOp.takes, SemOp.resumes]
        · rw [Function.update_of_ne hne, hprocs _ (hnot sem')]
          exact (h.accounts sem').other (by simpa [SemOp.sem] using Ne.symm hne)

theorem SemInv.resume {sem proc : Nat} (h : SemInv v ops s waits pend)
    (hstep : SemStep cls s (SemOp.resume sem proc) t) :
    ∃ waits' pend', SemInv v (ops ++ [SemOp.resume sem proc]) t waits' pend' := by
  rcases hstep with ⟨hrun, rfl, w, hw, hres, hin⟩
  -- The process runs, so it is not asleep in the queue.
  have hnot : w ∉ waits sem := by
    intro hc
    rw [(h.waiting.asleep _ sem w hw hc).1] at hrun
    cases hrun
  rcases downResume_of_handed h.waiting hw hnot with ⟨hdone, hwaiting⟩
  rw [hdone] at hres
  have ht := (done.inj hres).symm
  have hpend : s.sync.machine.current ∈ pend sem := (h.mem_pend _ _).2 ⟨w, hw, hnot⟩
  have hprocs : ∀ us, procs t us = procs s us := by
    intro us
    simp [procs, ht]
  refine ⟨waits, Function.update pend sem ((pend sem).erase s.sync.machine.current),
    ?_, ?_, ?_, ?_⟩
  · rw [hin, ht]
    exact hwaiting
  · intro sem'
    by_cases hne : sem' = sem
    · subst hne
      rw [Function.update_self]
      exact (h.nodup sem').erase _
    · rw [Function.update_of_ne hne]
      exact h.nodup sem'
  · intro sem' p
    have hmem : p ∈ Function.update pend sem ((pend sem).erase s.sync.machine.current) sem' ↔
        p ∈ pend sem' ∧ p ≠ s.sync.machine.current := by
      by_cases hne : sem' = sem
      · subst hne
        rw [Function.update_self, (h.nodup sem').mem_erase_iff]
        exact and_comm
      · rw [Function.update_of_ne hne]
        refine (and_iff_left_of_imp ?_).symm
        rintro hp rfl
        rcases (h.mem_pend sem' _).1 hp with ⟨w', hw', _⟩
        rw [hw] at hw'
        cases hw'
        exact hne rfl
    rw [hmem, h.mem_pend, hin, handed_resume]
  · intro sem'
    rw [hprocs, ht]
    by_cases hne : sem' = sem
    · subst hne
      have hacc := h.accounts sem'
      rw [Function.update_self]
      refine hacc.step rfl hacc.nonneg hacc.small hacc.noWaiter ?_ ?_ ?_
      · simp [SemOp.waits, SemOp.wakes]
      · simpa [SemOp.wakes, SemOp.resumes] using List.perm_cons_erase hpend
      · have hlen := (List.perm_cons_erase hpend).length_eq
        simp only [List.length_cons] at hlen
        simp [SemOp.isUp, SemOp.takes, SemOp.resumes]
        omega
    · rw [Function.update_of_ne hne]
      exact (h.accounts sem').other (by simpa [SemOp.sem] using Ne.symm hne)

theorem SemInv.tryDown {sem : Nat} {taken : Bool} (h : SemInv v ops s waits pend)
    (hstep : SemStep cls s (SemOp.tryDown sem taken) t) :
    SemInv v (ops ++ [SemOp.tryDown sem taken]) t waits pend := by
  rcases hstep with ⟨_, htry, hin⟩
  unfold TriOS.tryDown at htry
  by_cases hv : 0 < s.sync.value sem
  · rw [if_pos hv] at htry
    rcases Prod.mk.inj htry with ⟨rfl, ht⟩
    exact h.take hv rfl rfl rfl rfl rfl rfl hin ht.symm
  · rw [if_neg hv] at htry
    rcases Prod.mk.inj htry with ⟨rfl, ht⟩
    have hacc := h.accounts sem
    refine h.setValue (s.sync.value sem) rfl hin ?_ (by rw [ht]) (by rw [ht]) ?_
    · rw [Function.update_eq_self, ht]
    · refine hacc.step rfl hacc.nonneg hacc.small hacc.noWaiter ?_ ?_ ?_
      · simp [SemOp.waits, SemOp.wakes]
      · simp [SemOp.wakes, SemOp.resumes]
      · simp [SemOp.isUp, SemOp.takes, SemOp.resumes]

/-- `do_kill` wakes no process inside `down`: `WT_KSEM` cannot be interrupted. -/
theorem SemInv.kill {proc : Nat} (h : SemInv v ops s waits pend)
    (hstep : SemStep cls s (SemOp.kill proc) t) :
    SemInv v (ops ++ [SemOp.kill proc]) t waits pend := by
  rcases hstep with ⟨hin, hvalue, hwaits, r, hkill⟩
  exact h.frame rfl hin hvalue hwaits (h.waiting.killProc_frame hkill)

theorem SemInv.step (h : SemInv v ops s waits pend) (hok : ¬ UpOverflows s op)
    (hstep : SemStep cls s op t) : ∃ waits' pend', SemInv v (ops ++ [op]) t waits' pend' := by
  cases op with
  | up sem woken => exact h.up hok hstep
  | down sem waiting => exact h.down hstep
  | resume sem proc => exact h.resume hstep
  | tryDown sem taken => exact ⟨waits, pend, h.tryDown hstep⟩
  | switch proc =>
      rcases hstep with ⟨_, hin, hvalue, hwaits, _, hproc⟩
      exact ⟨waits, pend, h.frame rfl hin hvalue hwaits fun p _ => hproc p⟩
  | kill proc => exact ⟨waits, pend, h.kill hstep⟩
  | other =>
      rcases hstep with ⟨hin, hvalue, hwaits, hproc⟩
      exact ⟨waits, pend, h.frame rfl hin hvalue hwaits hproc⟩

/-! ## Semaphores are safe -/

/-- The assertions of `__up`, `__down` and of the wait queues hold in every action that the current
process can take next. -/
def AssertionsHold (cls : SchedClass Q) (s : SemSys Q) : Prop :=
  (Ready s → ∀ sem, ∃ s', up cls s.sync sem = done s') ∧
  (Ready s → ∀ sem w, FreshWait s w → ∃ r, down s.sync sem w = done r) ∧
  ∀ sem w, s.inDown s.sync.machine.current = some (sem, w) →
    (s.sync.machine.proc s.sync.machine.current).state = ProcState.runnable →
      ∃ s', downResume s.sync sem w = done s'

theorem SemInv.assertionsHold (cls : SchedClass Q) (h : SemInv v ops s waits pend) :
    AssertionsHold cls s := by
  refine ⟨fun _ sem => ?_, fun hready sem w hfresh => ?_, fun sem w hw hrun => ?_⟩
  · cases hq : waits sem with
    | nil => exact ⟨_, up_of_nil cls h.waiting hq⟩
    | cons w ws =>
        rcases up_of_cons cls h.waiting hq with ⟨s', hs', _⟩
        exact ⟨s', hs'⟩
  · by_cases hv : 0 < s.sync.value sem
    · exact ⟨_, down_of_pos hv⟩
    · rcases down_of_not_pos h.waiting hv hready.2 hfresh with ⟨s', hs', _⟩
      exact ⟨_, hs'⟩
  · have hnot : w ∉ waits sem := by
      intro hc
      rw [(h.waiting.asleep _ sem w hw hc).1] at hrun
      cases hrun
    exact ⟨_, (downResume_of_handed h.waiting hw hnot).1⟩

/-- Every semaphore has been initialised by `sem_init` with its value, and nobody is in `down`. -/
structure Initialised (v : Nat → Int) (s : SemSys Q) : Prop where
  value : s.sync.value = v
  nonneg : ∀ sem, 0 ≤ v sem
  small : ∀ sem, v sem ≤ intMax
  ring : ∀ sem, Ring s.sync.waits.link (WaitNode.head sem) []
  outside : ∀ p, s.inDown p = none

/-- `sem_init` of a semaphore that nobody uses. -/
theorem Initialised.semInit (h : Initialised v s) (sem : Nat) {x : Int} (h0 : 0 ≤ x)
    (h1 : x ≤ intMax) :
    Initialised (Function.update v sem x) { s with sync := semInit s.sync sem x } := by
  refine ⟨by simp [TriOS.semInit, h.value], ?_, ?_, ?_, h.outside⟩
  · intro sem'
    by_cases hne : sem' = sem
    · simpa [hne] using h0
    · simpa [hne] using h.nonneg sem'
  · intro sem'
    by_cases hne : sem' = sem
    · simpa [hne] using h1
    · simpa [hne] using h.small sem'
  · intro sem'
    change Ring (listInit _ _) _ _
    by_cases hne : sem' = sem
    · subst hne
      exact ring_listInit _ _
    · exact ring_listInit_of_not_mem (h.ring sem') (by simpa using Ne.symm hne)

theorem Initialised.semInv (h : Initialised v s) : SemInv v [] s (fun _ => []) (fun _ => []) := by
  refine ⟨⟨h.ring, ?_, ?_, ?_, ?_⟩, fun _ => List.nodup_nil, ?_, ?_⟩
  · intro sem w hw
    cases hw
  · intro p sem w hp
    rw [h.outside p] at hp
    cases hp
  · intro p sem w hp
    rw [h.outside p] at hp
    cases hp
  · intro p sem w hp
    rw [h.outside p] at hp
    cases hp
  · intro sem p
    simp [Handed, h.outside]
  · intro sem
    rw [h.value]
    exact Accounts.start (h.nonneg sem) (h.small sem)

/-- Runs of any number of processes on any number of semaphores, in which no `up` without a waiter
meets the largest `int`: the values stay in range, a positive value means an empty queue, the units
add up, waiters are woken in the order in which they began to wait and each once, and all
assertions hold. -/
theorem semaphore_safe (cls : SchedClass Q) {v : Nat → Int} {s t : SemSys Q} {ops : List SemOp}
    (hinit : Initialised v s)
    (hrun : Run (Guarded (fun s op => ¬ UpOverflows s op) (SemStep cls)) s ops t) :
    AssertionsHold cls t ∧ ∃ waits : Nat → List Nat, Waiting t.sync t.inDown waits ∧
      ∀ sem, ∃ pending : List Nat, pending.Nodup ∧
        (∀ p, p ∈ pending ↔ Handed t.inDown waits sem p) ∧
        Accounts (v sem) sem ops (t.sync.value sem) (procs t (waits sem)) pending := by
  have hinv := hrun.trace_invariant (fun ops t => ∃ waits pend, SemInv v ops t waits pend) ?_
    ⟨_, _, hinit.semInv⟩
  · rcases hinv with ⟨waits, pend, h⟩
    exact ⟨h.assertionsHold cls, waits, h.waiting, fun sem =>
      ⟨pend sem, h.nodup sem, h.mem_pend sem, h.accounts sem⟩⟩
  · rintro ops s op t ⟨waits, pend, h⟩ ⟨hok, hstep⟩
    exact h.step hok hstep

/-- Process 1 runs, and all semaphores have the value `x`. -/
def semStart (x : Int) : SemSys RunQueue :=
  { sync :=
      { value := fun _ => x
        waits := { link := { next := id, prev := id }, wait := fun _ => ⟨0, 0, 0⟩ }
        machine :=
          { proc := fun _ => { allocProc 0 1 with state := ProcState.runnable }
            current := 1
            idleproc := 0
            rq := { pool := SkewHeap.nil, procNum := 0, maxTimeSlice := maxTimeSlice } } }
    inDown := fun _ => none }

theorem initialised_semStart {x : Int} (h0 : 0 ≤ x) (h1 : x ≤ intMax) :
    Initialised (fun _ => x) (semStart x) :=
  ⟨rfl, fun _ => h0, fun _ => h1, fun _ => ⟨by simp, rfl, rfl⟩, fun _ => rfl⟩

/-- The state after one `up` of semaphore 0. -/
def afterUp (x : Int) : SemSys RunQueue :=
  { semStart x with
    sync := { (semStart x).sync with
      value := Function.update (fun _ => x) 0 (toInt (x + 1)) } }

theorem semStep_up (x : Int) :
    SemStep defaultSchedClass (semStart x) (SemOp.up 0 none) (afterUp x) :=
  ⟨⟨rfl, rfl⟩, rfl, rfl, rfl⟩

/-- A first `up` of a semaphore that starts at 0: the accounts balance with one unit. -/
theorem semaphore_safe_semStart :
    AssertionsHold defaultSchedClass (afterUp 0) ∧ ∃ waits : Nat → List Nat,
      Waiting (afterUp 0).sync (afterUp 0).inDown waits ∧ ∀ sem, ∃ pending : List Nat,
        pending.Nodup ∧ (∀ p, p ∈ pending ↔ Handed (afterUp 0).inDown waits sem p) ∧
        Accounts 0 sem [SemOp.up 0 none] ((afterUp 0).sync.value sem)
          (procs (afterUp 0) (waits sem)) pending := by
  have hrun : Run (Guarded (fun s op => ¬ UpOverflows s op) (SemStep defaultSchedClass))
      (semStart 0) [SemOp.up 0 none] (afterUp 0) :=
    Run.cons ⟨fun hc => absurd hc.2 (by decide), semStep_up 0⟩ Run.nil
  exact semaphore_safe defaultSchedClass (initialised_semStart le_rfl (by decide)) hrun

/-- A semaphore that starts with the largest `int` becomes negative with the first `up`. -/
theorem semaphore_up_overflow :
    Initialised (fun _ => intMax) (semStart intMax) ∧
      Run (SemStep defaultSchedClass) (semStart intMax) [SemOp.up 0 none] (afterUp intMax) ∧
        (afterUp intMax).sync.value 0 < 0 :=
  ⟨initialised_semStart (by decide) le_rfl, Run.cons (semStep_up intMax) Run.nil, by decide⟩

end TriOS
