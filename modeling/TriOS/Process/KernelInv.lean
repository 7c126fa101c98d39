import TriOS.Process.Kernel

/-!
# The invariant of the process table

What holds between two steps of the kernel, in four parts: the scheduler, the table of the processes
with the system calls they are in, the process tree, and the processes that wait for a semaphore or
for a timer. Each part comes with the changes of the kernel that it does not notice.
-/

namespace TriOS

open Chain DeltaQueue Outcome Transition

variable {k t : Kern} {m m' m'' : Machine RunQueue} {p q c : Nat} {call : Call} {v : Proc}

/-! ## Waking up -/

/-- The process sleeps with the wait state, or it was woken. -/
def Blocked (waitState : UInt32) (v : Proc) : Prop :=
  (v.state = ProcState.sleeping ∧ v.waitState = waitState) ∨
    (v.state = ProcState.runnable ∧ v.waitState = 0)

/-- What the system call says about the state of the process. -/
def Call.Allows : Call → Proc → Prop
  | Call.user, v => v.state = ProcState.runnable ∧ v.waitState = 0
  | Call.wait _, v => Blocked wtChild v
  | Call.sleep _, v => Blocked wtTimer v
  | Call.down _ _, v => Blocked wtKsem v
  | Call.exited, v => v.state = ProcState.zombie

theorem Call.Allows.waitState (h : call.Allows v) (hv : v.state = ProcState.runnable) :
    v.waitState = 0 := by
  have hblocked : ∀ ws, Blocked ws v → v.waitState = 0 := by
    rintro ws (⟨hs, _⟩ | ⟨_, h0⟩)
    · rw [hv] at hs
      cases hs
    · exact h0
  cases call with
  | user => exact h.2
  | wait _ => exact hblocked _ h
  | sleep _ => exact hblocked _ h
  | down _ _ => exact hblocked _ h
  | exited =>
      have hz : v.state = ProcState.zombie := h
      rw [hv] at hz
      cases hz

theorem Call.Allows.not_uninit (h : call.Allows v) : v.state ≠ ProcState.uninit := by
  intro hv
  cases call with
  | user => exact absurd (hv.symm.trans h.1) (by decide)
  | exited => exact absurd (hv.symm.trans h) (by decide)
  | wait _ | sleep _ | down _ _ =>
      rcases h with ⟨hs, _⟩ | ⟨hs, _⟩ <;> exact absurd (hv.symm.trans hs) (by decide)

/-- A process that runs may be in any system call but `exit`. -/
theorem Call.allows_of_runnable (hcall : call ≠ Call.exited) (hv : v.state = ProcState.runnable)
    (hw : v.waitState = 0) : call.Allows v := by
  cases call with
  | user => exact ⟨hv, hw⟩
  | exited => exact absurd rfl hcall
  | wait _ | sleep _ | down _ _ => exact Or.inr ⟨hv, hw⟩

theorem Call.Allows.congr {w : Proc} (h : call.Allows v) (hs : w.state = v.state)
    (hw : w.waitState = v.waitState) : call.Allows w := by
  cases call with
  | user | exited => simpa only [Call.Allows, hs, hw] using h
  | wait _ | sleep _ | down _ _ => simpa only [Call.Allows, Blocked, hs, hw] using h

/-- Some sleeping processes have become runnable; nothing else has changed but run fields, the flag
`PF_EXITING` and the run queue. -/
structure Awakes (m m' : Machine RunQueue) : Prop where
  current : m'.current = m.current
  idleproc : m'.idleproc = m.idleproc
  pid : ∀ p, (m'.proc p).pid = (m.proc p).pid
  exitCode : ∀ p, (m'.proc p).exitCode = (m.proc p).exitCode
  links : ∀ p, (m'.proc p).parent = (m.proc p).parent ∧ (m'.proc p).cptr = (m.proc p).cptr ∧
    (m'.proc p).yptr = (m.proc p).yptr ∧ (m'.proc p).optr = (m.proc p).optr
  state : ∀ p, ((m'.proc p).state = (m.proc p).state ∧
      (m'.proc p).waitState = (m.proc p).waitState) ∨
    ((m.proc p).state = ProcState.sleeping ∧ (m'.proc p).state = ProcState.runnable ∧
      (m'.proc p).waitState = 0)

theorem Awakes.refl (m : Machine RunQueue) : Awakes m m :=
  ⟨rfl, rfl, fun _ => rfl, fun _ => rfl, fun _ => ⟨rfl, rfl, rfl, rfl⟩, fun _ => Or.inl ⟨rfl, rfl⟩⟩

theorem Awakes.trans (h : Awakes m m') (h' : Awakes m' m'') : Awakes m m'' := by
  refine ⟨h'.current.trans h.current, h'.idleproc.trans h.idleproc,
    fun p => (h'.pid p).trans (h.pid p), fun p => (h'.exitCode p).trans (h.exitCode p),
    fun p => ?_, fun p => ?_⟩
  · rcases h.links p with ⟨h1, h2, h3, h4⟩
    rcases h'.links p with ⟨h1', h2', h3', h4'⟩
    exact ⟨h1'.trans h1, h2'.trans h2, h3'.trans h3, h4'.trans h4⟩
  · rcases h.state p with ⟨hs, hw⟩ | ⟨hs, hr, hw⟩
    · rcases h'.state p with ⟨hs', hw'⟩ | ⟨hs', hr', hw'⟩
      · exact Or.inl ⟨hs'.trans hs, hw'.trans hw⟩
      · exact Or.inr ⟨hs.symm.trans hs', hr', hw'⟩
    · rcases h'.state p with ⟨hs', hw'⟩ | ⟨hs', hr', hw'⟩
      · exact Or.inr ⟨hs, hs'.trans hr, hw'.trans hw⟩
      · exact absurd (hr.symm.trans hs') (by decide)

theorem SameProcs.awakes (h : SameProcs m m') : Awakes m m' := by
  refine ⟨h.current, h.idleproc, h.pid, fun p => ?_, fun p => ?_,
    fun p => Or.inl ⟨h.state p, h.waitState p⟩⟩
  all_goals
    rcases h.proc p with ⟨r, hr⟩
    simp [hr]

/-- `wakeup_proc` of a process that is not just being made. -/
theorem awakes_wakeupProc (h : wakeupProc defaultSchedClass m p = done m')
    (hp : (m.proc p).state ≠ ProcState.uninit) : Awakes m m' := by
  rcases wakeupProc_inv h with ⟨hz, ⟨_, rfl⟩ | ⟨hr, m1, rfl, hm'⟩⟩
  · exact Awakes.refl _
  · have hs : (m.proc p).state = ProcState.sleeping := by
      cases hv : (m.proc p).state <;> simp_all
    have h1 : Awakes m (m.setProc p
        { m.proc p with state := ProcState.runnable, waitState := 0 }) := by
      refine ⟨rfl, rfl, fun q => ?_, fun q => ?_, fun q => ?_, fun q => ?_⟩
      all_goals by_cases hq : q = p
      all_goals simp [Machine.setProc, hq, hs]
    rcases hm' with ⟨_, rfl⟩ | ⟨_, rfl⟩
    · exact h1.trans (sameProcs_enqueue _ _).awakes
    · exact h1

theorem awakes_setExiting (m : Machine RunQueue) (p : Nat) : Awakes m (m.setExiting p) := by
  refine ⟨rfl, rfl, fun q => ?_, fun q => ?_, fun q => ?_, fun q =>
    Or.inl (m.setExiting_state p q)⟩
  all_goals by_cases hq : q = p
  all_goals simp [Machine.setExiting, Machine.setProc, hq]

theorem Awakes.not_uninit (h : Awakes m m') (hp : (m.proc p).state ≠ ProcState.uninit) :
    (m'.proc p).state ≠ ProcState.uninit := by
  rcases h.state p with ⟨hs, _⟩ | ⟨_, hr, _⟩
  · rwa [hs]
  · rw [hr]
    decide

theorem Awakes.runnable (h : Awakes m m') (hp : (m.proc p).state = ProcState.runnable) :
    (m'.proc p).state = ProcState.runnable := by
  rcases h.state p with ⟨hs, _⟩ | ⟨_, hr, _⟩
  · rwa [hs]
  · exact hr

theorem Awakes.zombie_iff (h : Awakes m m') :
    (m'.proc p).state = ProcState.zombie ↔ (m.proc p).state = ProcState.zombie := by
  rcases h.state p with ⟨hs, _⟩ | ⟨hs, hr, _⟩
  · rw [hs]
  · rw [hs, hr]
    decide

theorem Awakes.uninit (h : Awakes m m') (hp : (m.proc p).state = ProcState.uninit) :
    (m'.proc p).state = ProcState.uninit := by
  rcases h.state p with ⟨hs, _⟩ | ⟨hs, _, _⟩
  · rwa [hs]
  · rw [hp] at hs
    cases hs

/-- Waking a process up is compatible with the system call it is in. -/
theorem Awakes.allows (h : Awakes m m') (hp : call.Allows (m.proc p)) :
    call.Allows (m'.proc p) := by
  rcases h.state p with ⟨hs, hw⟩ | ⟨hs, hr, hw⟩
  · exact hp.congr hs hw
  · refine Call.allows_of_runnable ?_ hr hw
    rintro rfl
    exact absurd (hs.symm.trans hp) (by decide)

theorem Awakes.sleeper (h : Awakes m m') (hp : Sleeper (m.proc p)) : Sleeper (m'.proc p) :=
  @Awakes.allows m m' p (Call.sleep 0) h hp

theorem awakes_wakes {ps : List Nat} (h : Wakes defaultSchedClass m ps m')
    (hps : ∀ p ∈ ps, (m.proc p).state ≠ ProcState.uninit) : Awakes m m' := by
  induction h with
  | nil => exact Awakes.refl _
  | cons hp hps' ih =>
      have h1 := awakes_wakeupProc hp (hps _ (by simp))
      exact h1.trans (ih fun q hq => h1.not_uninit (hps q (by simp [hq])))

theorem awakes_killProc {r : Bool} (h : killProc defaultSchedClass m p = done (r, m'))
    (hp : (m.proc p).state ≠ ProcState.uninit) : Awakes m m' := by
  rcases killProc_cases h with rfl | rfl | ⟨_, hwake⟩
  · exact Awakes.refl _
  · exact awakes_setExiting m p
  · have h1 := awakes_setExiting m p
    exact h1.trans (awakes_wakeupProc hwake (h1.not_uninit hp))

/-! ## The table of the processes -/

/-- The process is on `proc_list`, or it is the idle process. -/
def Kern.Member (k : Kern) (p : Nat) : Prop :=
  p ∈ k.procList ∨ p = k.machine.idleproc

/-- The table of the processes. A descriptor that is allocated and not listed belongs to a child that
is just being made. -/
structure Table (k : Kern) : Prop where
  nodup : k.procList.Nodup
  hash : ∀ i, k.hashList i = k.procList.filter fun p => pidHashfn (k.machine.proc p).pid = i
  listed : ∀ p ∈ k.procList, p ∈ k.alive ∧ 1 ≤ (k.machine.proc p).pid ∧ p ≠ k.machine.idleproc
  count : k.nrProcess = k.procList.length + 1
  pids : 1 ≤ k.lastPid ∧
    PidGap (k.procList.map fun p => (k.machine.proc p).pid) k.lastPid k.nextSafe
  idle : (k.machine.proc k.machine.idleproc).pid = 0 ∧
    (k.ctx k.machine.idleproc).call = Call.user
  status : ∀ p, k.Member p → (k.ctx p).call.Allows (k.machine.proc p)
  rest : ∀ p ∈ k.alive, ¬ k.Member p →
    (k.machine.proc p).state = ProcState.uninit ∧ (k.machine.proc p).pid = -1
  quiet : ∀ p, ¬ k.Member p → k.ctx p = Context.start
  forking : ∀ p c, (k.ctx p).forking = some c →
    c ∈ k.alive ∧ ¬ k.Member c ∧ (k.machine.proc c).parent = some p
  running : (k.ctx k.current).switched = true → (k.machine.proc k.current).state = ProcState.runnable
  current : k.Member k.current
  init : ∀ i, k.initproc = some i → i ∈ k.procList ∧ (k.machine.proc i).state ≠ ProcState.zombie

theorem Table.member_pid (h : Table k) (hp : k.Member p) : (k.machine.proc p).pid ≠ -1 := by
  rcases hp with hp | rfl
  · have hpid := (h.listed p hp).2.1
    omega
  · rw [h.idle.1]
    decide

theorem Table.member_alive (h : Table k) (hs : SchedInv ⟨k.machine, k.alive⟩) (hp : k.Member p) :
    p ∈ k.alive := by
  rcases hp with hp | rfl
  · exact (h.listed p hp).1
  · exact hs.idle

/-- A process in a system call is listed. -/
theorem Table.listed_of_call (h : Table k) (hp : (k.ctx p).call ≠ Call.user) : p ∈ k.procList := by
  by_cases hmem : k.Member p
  · rcases hmem with hmem | rfl
    · exact hmem
    · exact absurd h.idle.2 hp
  · rw [h.quiet p hmem] at hp
    exact absurd rfl hp

theorem Table.findProc (h : Table k) {pid : Int} (hp : findProc k pid = some p) :
    p ∈ k.procList ∧ (k.machine.proc p).pid = pid := by
  unfold TriOS.findProc at hp
  by_cases hpid : 0 < pid ∧ pid < maxPid
  · rw [if_pos hpid, h.hash] at hp
    have hmem := List.mem_of_find?_eq_some hp
    have hdec := List.find?_some hp
    exact ⟨List.mem_of_mem_filter hmem, by simpa using hdec⟩
  · rw [if_neg hpid] at hp
    cases hp

/-- The parts of the kernel that only `fork`, `wait` and the making of `init` change, and the parts
that concern other processes than the current one. -/
structure SameTable (k t : Kern) : Prop where
  procList : t.procList = k.procList
  hashList : t.hashList = k.hashList
  alive : t.alive = k.alive
  initproc : t.initproc = k.initproc
  nrProcess : t.nrProcess = k.nrProcess
  counters : t.lastPid = k.lastPid ∧ t.nextSafe = k.nextSafe
  idleproc : t.machine.idleproc = k.machine.idleproc
  pid : ∀ p, (t.machine.proc p).pid = (k.machine.proc p).pid
  forking : ∀ p, (t.ctx p).forking = (k.ctx p).forking
  ctx : ∀ p, p ≠ k.current → t.ctx p = k.ctx p

theorem SameTable.member (h : SameTable k t) : t.Member p ↔ k.Member p := by
  unfold Kern.Member
  rw [h.procList, h.idleproc]

theorem Table.frame (h : Table k) (hsame : SameTable k t)
    (hidle : (t.ctx k.machine.idleproc).call = Call.user)
    (hstatus : ∀ p, k.Member p → (t.ctx p).call.Allows (t.machine.proc p))
    (hrest : ∀ p ∈ k.alive, ¬ k.Member p →
      (t.machine.proc p).state = (k.machine.proc p).state ∧
        (t.machine.proc p).parent = (k.machine.proc p).parent)
    (hrunning : (t.ctx t.current).switched = true →
      (t.machine.proc t.current).state = ProcState.runnable)
    (hcurrent : k.Member t.current)
    (hzombie : ∀ p, k.initproc = some p → (k.machine.proc p).state ≠ ProcState.zombie →
      (t.machine.proc p).state ≠ ProcState.zombie) : Table t := by
  refine ⟨?_, fun i => ?_, fun p hp => ?_, ?_, ?_, ?_, fun p hp => ?_, fun p hp hmem => ?_,
    fun p hp => ?_, fun p c hc => ?_, hrunning, hsame.member.2 hcurrent, fun i hi => ?_⟩
  · rw [hsame.procList]
    exact h.nodup
  · rw [hsame.hashList, hsame.procList, h.hash]
    simp only [hsame.pid]
  · rw [hsame.procList] at hp
    rw [hsame.alive, hsame.pid, hsame.idleproc]
    exact h.listed p hp
  · rw [hsame.nrProcess, hsame.procList]
    exact h.count
  · rw [hsame.procList, hsame.counters.1, hsame.counters.2]
    simp only [hsame.pid]
    exact h.pids
  · rw [hsame.idleproc, hsame.pid]
    exact ⟨h.idle.1, hidle⟩
  · exact hstatus p (hsame.member.1 hp)
  · rw [hsame.member] at hmem
    rw [hsame.alive] at hp
    rw [(hrest p hp hmem).1, hsame.pid]
    exact h.rest p hp hmem
  · rw [hsame.member] at hp
    by_cases hpc : p = k.current
    · exact absurd (hpc ▸ h.current) hp
    · rw [hsame.ctx p hpc]
      exact h.quiet p hp
  · rw [hsame.forking] at hc
    rcases h.forking p c hc with ⟨halive, hmem, hparent⟩
    rw [hsame.alive, hsame.member, (hrest c halive hmem).2]
    exact ⟨halive, hmem, hparent⟩
  · rw [hsame.initproc] at hi
    rw [hsame.procList]
    exact ⟨(h.init i hi).1, hzombie i hi (h.init i hi).2⟩

/-! ## The process tree -/

/-- The tree of the processes: `kids q` are the children of `q`. A zombie has none, except in the
middle of its `do_exit`. -/
structure Family (k : Kern) (exiting : Option Nat) (before : Nat → Option Nat)
    (kids : Nat → List Nat) : Prop where
  tree : Tree k.machine.proc (· ∈ k.alive) before kids
  before : ∀ q, some q ≠ exiting → before q = none
  child : ∀ p, p ∈ k.procList ↔ ∃ q, p ∈ kids q
  parents : ∀ q, kids q ≠ [] →
    k.Member q ∧ ((k.machine.proc q).state ≠ ProcState.zombie ∨ some q = exiting)

variable {kids : Nat → List Nat} {before : Nat → Option Nat} {exiting : Option Nat}

/-- The parent of a listed process. -/
theorem Family.parent (h : Family k exiting before kids) (hp : p ∈ k.procList) :
    ∃ q, p ∈ kids q ∧ (k.machine.proc p).parent = some q ∧ k.Member q := by
  rcases (h.child p).1 hp with ⟨q, hq⟩
  exact ⟨q, hq, h.tree.parent q p hq, (h.parents q (List.ne_nil_of_mem hq)).1⟩

theorem Family.mem_kids (h : Family k exiting before kids) (hp : p ∈ k.procList)
    (hparent : (k.machine.proc p).parent = some q) : p ∈ kids q := by
  rcases h.parent hp with ⟨q', hq', hparent', _⟩
  have hqq : q' = q := Option.some.inj (hparent'.symm.trans hparent)
  exact hqq ▸ hq'

theorem Family.frame (h : Family k exiting before kids) (hlist : t.procList = k.procList)
    (halive : t.alive = k.alive) (hidle : t.machine.idleproc = k.machine.idleproc)
    (hlinks : ∀ p, (t.machine.proc p).parent = (k.machine.proc p).parent ∧
      (t.machine.proc p).cptr = (k.machine.proc p).cptr ∧
      (t.machine.proc p).yptr = (k.machine.proc p).yptr ∧
      (t.machine.proc p).optr = (k.machine.proc p).optr)
    (hzombie : ∀ p, some p ≠ exiting → (t.machine.proc p).state = ProcState.zombie →
      (k.machine.proc p).state = ProcState.zombie) : Family t exiting before kids := by
  refine ⟨h.tree.congr (fun q hq => halive ▸ hq) (fun q hq => halive ▸ h.tree.owner q hq) hlinks,
    h.before, fun p => ?_, fun q hq => ?_⟩
  · rw [hlist]
    exact h.child p
  · unfold Kern.Member
    rw [hlist, hidle]
    refine ⟨(h.parents q hq).1, ?_⟩
    by_cases hexit : some q = exiting
    · exact Or.inr hexit
    · exact Or.inl fun hz => (h.parents q hq).2.elim (fun hn => hn (hzombie q hexit hz)) hexit

/-! ## The processes that wait -/

/-- The process is in the middle of `down(sem)` with the wait. -/
def Kern.inDown (k : Kern) (p : Nat) : Option (Nat × Nat) :=
  match (k.ctx p).call with
  | Call.down sem w => some (sem, w)
  | _ => none

theorem inDown_eq {sem w : Nat} : k.inDown p = some (sem, w) ↔ (k.ctx p).call = Call.down sem w := by
  unfold Kern.inDown
  cases (k.ctx p).call <;> simp

theorem inDown_ne_none : k.inDown p ≠ none ↔ ∃ sem w, (k.ctx p).call = Call.down sem w := by
  unfold Kern.inDown
  cases (k.ctx p).call <;> simp

/-- The processes in the middle of `down` or of `do_sleep`. -/
structure Pending (k : Kern) (queue : Nat → List Nat) (a : Agenda) (q : List (Nat × Nat)) : Prop where
  waiting : Waiting k.sync k.inDown queue
  tracks : Tracks ⟨k.timers, k.machine⟩ a q
  timer : ∀ x ∈ keys q, (k.ctx (k.timers.proc x)).call = Call.sleep x
  placed : ∀ p timer, (k.ctx p).call = Call.sleep timer → Placed k.timers q timer

variable {queue : Nat → List Nat} {a : Agenda} {d : List (Nat × Nat)}

theorem Tracks.machine {l : TimerList} (h : Tracks ⟨l, m⟩ a d)
    (hs : ∀ x ∈ d, Sleeper (m'.proc (l.proc x.1))) : Tracks ⟨l, m'⟩ a d :=
  ⟨h.rep, h.live, h.deadlines, h.bounded, hs⟩

/-- The calls of the processes have changed only between others than `down` and `do_sleep`, and no
process in one of these has changed its state. -/
theorem Pending.frame (h : Pending k queue a d) (hwaits : t.sync.waits = k.sync.waits)
    (htimers : t.timers = k.timers)
    (hdown : ∀ p sem w, (t.ctx p).call = Call.down sem w ↔ (k.ctx p).call = Call.down sem w)
    (hsleep : ∀ p timer, (t.ctx p).call = Call.sleep timer ↔ (k.ctx p).call = Call.sleep timer)
    (hproc : ∀ p, (∃ sem w, (k.ctx p).call = Call.down sem w) ∨
        (∃ timer, (k.ctx p).call = Call.sleep timer) →
      (t.machine.proc p).state = (k.machine.proc p).state ∧
        (t.machine.proc p).waitState = (k.machine.proc p).waitState) : Pending t queue a d := by
  have hin : t.inDown = k.inDown := by
    funext p
    cases hp : k.inDown p with
    | some x =>
        rw [inDown_eq, hdown, ← inDown_eq, hp]
    | none =>
        by_contra hc
        rcases inDown_ne_none.1 hc with ⟨sem, w, hcall⟩
        rw [hdown, ← inDown_eq, hp] at hcall
        cases hcall
  refine ⟨?_, ?_, fun x hx => ?_, fun p timer hp => ?_⟩
  · rw [hin]
    exact h.waiting.congr hwaits fun p hp => hproc p (Or.inl (inDown_ne_none.1 hp))
  · rw [htimers]
    refine h.tracks.machine fun x hx => ?_
    rcases hproc _ (Or.inr ⟨x.1, h.timer x.1 (List.mem_map_of_mem hx)⟩) with ⟨hs, hw⟩
    unfold Sleeper
    rw [hs, hw]
    exact h.tracks.sleeper x hx
  · rw [htimers, hsleep]
    exact h.timer x hx
  · rw [htimers]
    exact h.placed p timer ((hsleep p timer).1 hp)

/-! ## The invariant -/

/-- The invariant of the kernel, in the middle of the `do_exit` of `exiting` or between two steps. -/
structure KernInv (exiting : Option Nat) (k : Kern) : Prop where
  sched : SchedInv ⟨k.machine, k.alive⟩
  table : Table k
  family : ∃ before kids, Family k exiting before kids
  pending : ∃ queue a d, Pending k queue a d

/-- The process that can start a system call, or has come back in one, runs. -/
theorem Table.runs (h : Table k) (hrun : k.InUser ∨ (k.ctx k.current).switched = true) :
    (k.machine.proc k.current).state = ProcState.runnable ∧
      (k.machine.proc k.current).waitState = 0 := by
  have hstatus := h.status k.current h.current
  rcases hrun with hrun | hrun
  · rw [hrun] at hstatus
    exact hstatus
  · exact ⟨h.running hrun, hstatus.waitState (h.running hrun)⟩

/-- Processes are woken; the semaphores and the timers may change with it. -/
theorem KernInv.wake (h : KernInv exiting k) {sync : Sync RunQueue} {timers : TimerList}
    (haw : Awakes k.machine sync.machine) (hsched : SchedInv ⟨sync.machine, k.alive⟩)
    (hpending : ∃ queue a d, Pending { k with sync := sync, timers := timers } queue a d) :
    KernInv exiting { k with sync := sync, timers := timers } := by
  rcases h.family with ⟨before, kids, hfamily⟩
  refine ⟨hsched, ?_, ⟨before, kids, ?_⟩, hpending⟩
  · refine h.table.frame
      ⟨rfl, rfl, rfl, rfl, rfl, ⟨rfl, rfl⟩, haw.idleproc, haw.pid, fun _ => rfl, fun _ _ => rfl⟩
      h.table.idle.2 (fun p hp => haw.allows (h.table.status p hp)) (fun p hp hmem => ?_)
      (fun hr => ?_) ?_ fun p _ hz hz' => hz (haw.zombie_iff.1 hz')
    · have hu := (h.table.rest p hp hmem).1
      exact ⟨(haw.uninit hu).trans hu.symm, (haw.links p).1⟩
    · have hcur : (Kern.current { k with sync := sync, timers := timers }) = k.current := haw.current
      rw [hcur] at hr ⊢
      exact haw.runnable (h.table.running hr)
    · have hcur : (Kern.current { k with sync := sync, timers := timers }) = k.current := haw.current
      rw [hcur]
      exact h.table.current
  · exact hfamily.frame rfl rfl haw.idleproc haw.links fun p _ hz => haw.zombie_iff.1 hz

/-- Processes that are in no `down` are woken. -/
theorem KernInv.wakeMachine (h : KernInv exiting k) (haw : Awakes k.machine m)
    (hsched : SchedInv ⟨m, k.alive⟩)
    (hdown : ∀ p, k.inDown p ≠ none → (m.proc p).state = (k.machine.proc p).state ∧
      (m.proc p).waitState = (k.machine.proc p).waitState) :
    KernInv exiting (k.setMachine m) := by
  rcases h.pending with ⟨queue, a, d, hpending⟩
  have hwake := @KernInv.wake k exiting h { k.sync with machine := m } k.timers haw hsched
  refine hwake ⟨queue, a, d, ⟨?_, ?_, hpending.timer, hpending.placed⟩⟩
  · exact hpending.waiting.congr rfl hdown
  · exact hpending.tracks.machine fun x hx => haw.sleeper (hpending.tracks.sleeper x hx)

/-! ## The current process enters and leaves system calls -/

theorem enter_ctx_current (k : Kern) (call : Call) : (k.enter call).ctx k.current =
    { k.ctx k.current with call := call, switched := false } :=
  Function.update_self _ _ _

theorem enter_ctx_of_ne (call : Call) (hp : p ≠ k.current) : (k.enter call).ctx p = k.ctx p :=
  Function.update_of_ne hp _ _

theorem enter_forking (k : Kern) (call : Call) (p : Nat) :
    ((k.enter call).ctx p).forking = (k.ctx p).forking := by
  by_cases hp : p = k.current
  · rw [hp, enter_ctx_current]
  · rw [enter_ctx_of_ne call hp]

theorem switched_ctx (k : Kern) (p : Nat) : (k.switched.ctx p).call = (k.ctx p).call ∧
    (k.switched.ctx p).forking = (k.ctx p).forking := by
  by_cases hp : p = k.current
  · simp [Kern.switched, hp]
  · simp [Kern.switched, hp]

/-- The current process changes its state and the system call that it is in. -/
theorem Table.enter (h : Table k) {sync : Sync RunQueue} {timers : TimerList} {call : Call} {v : Proc}
    (hmachine : sync.machine = k.machine.setProc k.current v)
    (hpid : v.pid = (k.machine.proc k.current).pid) (hallows : call.Allows v)
    (hidle : k.current = k.machine.idleproc → call = Call.user)
    (hzombie : some k.current = k.initproc → v.state ≠ ProcState.zombie) :
    Table (({ k with sync := sync, timers := timers } : Kern).enter call) := by
  have hcur : Kern.current { k with sync := sync, timers := timers } = k.current := by
    unfold Kern.current Kern.machine
    rw [hmachine]
    rfl
  have hself : sync.machine.proc k.current = v := by
    rw [hmachine]
    exact Function.update_self _ _ _
  have hother : ∀ p, p ≠ k.current → sync.machine.proc p = k.machine.proc p := by
    intro p hp
    rw [hmachine]
    exact Function.update_of_ne hp _ _
  have hctx : ∀ p, p ≠ k.current →
      (({ k with sync := sync, timers := timers } : Kern).enter call).ctx p = k.ctx p := by
    intro p hp
    exact enter_ctx_of_ne call (hcur.symm ▸ hp)
  have hctxcur : (({ k with sync := sync, timers := timers } : Kern).enter call).ctx k.current =
      { k.ctx k.current with call := call, switched := false } := by
    have hc := enter_ctx_current { k with sync := sync, timers := timers } call
    rwa [hcur] at hc
  have hnot : ∀ p, ¬ k.Member p → p ≠ k.current := fun p hp hc => hp (hc ▸ h.current)
  refine h.frame ⟨rfl, rfl, rfl, rfl, rfl, ⟨rfl, rfl⟩, ?_, fun p => ?_, fun p => ?_, hctx⟩ ?_
    (fun p hp => ?_) (fun p _ hp => ?_) (fun hr => ?_) ?_ fun p hp hz => ?_
  · change sync.machine.idleproc = _
    rw [hmachine]
    rfl
  · change (sync.machine.proc p).pid = _
    by_cases hp : p = k.current
    · rw [hp, hself, hpid]
    · rw [hother p hp]
  · rw [enter_forking]
  · by_cases hp : k.machine.idleproc = k.current
    · rw [hp, hctxcur]
      exact hidle hp.symm
    · rw [hctx _ hp]
      exact h.idle.2
  · change (_ : Call).Allows (sync.machine.proc p)
    by_cases hpc : p = k.current
    · rw [hpc, hctxcur, hself]
      exact hallows
    · rw [hctx p hpc, hother p hpc]
      exact h.status p hp
  · change (sync.machine.proc p).state = _ ∧ (sync.machine.proc p).parent = _
    rw [hother p (hnot p hp)]
    exact ⟨rfl, rfl⟩
  · change ((({ k with sync := sync, timers := timers } : Kern).enter call).ctx
      (Kern.current { k with sync := sync, timers := timers })).switched = true at hr
    rw [hcur, hctxcur] at hr
    cases hr
  · change k.Member (Kern.current { k with sync := sync, timers := timers })
    rw [hcur]
    exact h.current
  · change (sync.machine.proc p).state ≠ _
    by_cases hpc : p = k.current
    · rw [hpc, hself]
      exact hzombie (hpc ▸ hp.symm)
    · rwa [hother p hpc]

theorem setProc_self (m : Machine RunQueue) (p : Nat) : m.setProc p (m.proc p) = m := by
  unfold Machine.setProc
  rw [Function.update_eq_self]

theorem setProc_of_ne (m : Machine RunQueue) (v : Proc) (hq : q ≠ p) :
    (m.setProc p v).proc q = m.proc q :=
  Function.update_of_ne hq _ _

/-- The current process returns to user mode. -/
theorem KernInv.leave (h : KernInv none k) {sync : Sync RunQueue} {timers : TimerList}
    (hmachine : sync.machine = k.machine)
    (hrun : k.InUser ∨ (k.ctx k.current).switched = true)
    (hpending : ∃ queue a d,
      Pending (({ k with sync := sync, timers := timers } : Kern).enter Call.user) queue a d) :
    KernInv none (({ k with sync := sync, timers := timers } : Kern).enter Call.user) := by
  rcases h.family with ⟨before, kids, hfamily⟩
  have hruns := h.table.runs hrun
  have hproc : ∀ p, sync.machine.proc p = k.machine.proc p := by
    intro p
    rw [hmachine]
  have hidle : sync.machine.idleproc = k.machine.idleproc := by rw [hmachine]
  refine ⟨?_, ?_, ⟨before, kids, ?_⟩, hpending⟩
  · change SchedInv ⟨sync.machine, k.alive⟩
    rw [hmachine]
    exact h.sched
  · refine h.table.enter ?_ rfl hruns (fun _ => rfl) fun _ => ?_
    · rw [setProc_self]
      exact hmachine
    · rw [hruns.1]
      decide
  · refine hfamily.frame rfl rfl hidle (fun p => ?_) fun p _ hz => ?_
    · change (sync.machine.proc p).parent = _ ∧ (sync.machine.proc p).cptr = _ ∧
        (sync.machine.proc p).yptr = _ ∧ (sync.machine.proc p).optr = _
      rw [hproc]
      exact ⟨rfl, rfl, rfl, rfl⟩
    · rw [← hproc]
      exact hz

/-- The current process goes to sleep in a system call. -/
theorem KernInv.block (h : KernInv none k) {sync : Sync RunQueue} {timers : TimerList} {call : Call}
    {waitState : UInt32}
    (hmachine : sync.machine = k.machine.setProc k.current { k.machine.proc k.current with
      state := ProcState.sleeping, waitState := waitState })
    (hcall : ∀ v : Proc, v.state = ProcState.sleeping → v.waitState = waitState → call.Allows v)
    (hidle : k.current ≠ k.machine.idleproc)
    (hpending : ∃ queue a d,
      Pending (({ k with sync := sync, timers := timers } : Kern).enter call) queue a d) :
    KernInv none (({ k with sync := sync, timers := timers } : Kern).enter call) := by
  rcases h.family with ⟨before, kids, hfamily⟩
  have hidle' : sync.machine.idleproc = k.machine.idleproc := by
    rw [hmachine]
    rfl
  refine ⟨?_, ?_, ⟨before, kids, ?_⟩, hpending⟩
  · change SchedInv ⟨sync.machine, k.alive⟩
    rw [hmachine]
    exact h.sched.setState rfl fun hc => by cases hc
  · exact h.table.enter hmachine rfl (hcall _ rfl rfl) (fun hc => absurd hc hidle)
      fun _ hc => by cases hc
  · refine hfamily.frame rfl rfl hidle' (fun p => ?_) fun p _ hz => ?_
    · change (sync.machine.proc p).parent = _ ∧ (sync.machine.proc p).cptr = _ ∧
        (sync.machine.proc p).yptr = _ ∧ (sync.machine.proc p).optr = _
      rw [hmachine]
      by_cases hp : p = k.current
      · simp [Machine.setProc, hp]
      · simp [Machine.setProc, hp]
    · change (sync.machine.proc p).state = _ at hz
      rw [hmachine] at hz
      by_cases hp : p = k.current
      · simp [Machine.setProc, hp] at hz
      · simpa [Machine.setProc, hp] using hz

/-- `schedule` -/
theorem KernInv.schedule (h : KernInv none k)
    (hs : TriOS.schedule defaultSchedClass k.machine = done m) : KernInv none (k.switched.setMachine m) := by
  rcases h.family with ⟨before, kids, hfamily⟩
  rcases h.pending with ⟨queue, a, d, hpending⟩
  rcases schedule_proc hs with ⟨hidle, hproc⟩
  have hsame : ∀ p, (m.proc p).state = (k.machine.proc p).state ∧
      (m.proc p).waitState = (k.machine.proc p).waitState ∧
      (m.proc p).pid = (k.machine.proc p).pid ∧ (m.proc p).parent = (k.machine.proc p).parent ∧
      (m.proc p).cptr = (k.machine.proc p).cptr ∧ (m.proc p).yptr = (k.machine.proc p).yptr ∧
      (m.proc p).optr = (k.machine.proc p).optr := by
    intro p
    rcases hproc p with ⟨r, hr⟩
    rw [hr]
    exact ⟨rfl, rfl, rfl, rfl, rfl, rfl, rfl⟩
  -- The next process is a candidate, or it is the idle process.
  have hcur : k.Member m.current ∧ (m.proc m.current).state = ProcState.runnable := by
    rcases h.sched.schedule_cases hs with ⟨_, hm⟩ | ⟨next, hnext, _, hm⟩
    · have hc : m.current = k.machine.idleproc := by rw [hm]
      rw [hc, (hsame _).1]
      have hstatus := h.table.status k.machine.idleproc (Or.inr rfl)
      rw [h.table.idle.2] at hstatus
      exact ⟨Or.inr rfl, hstatus.1⟩
    · have hc : m.current = next := by rw [hm]
      rcases SchedSys.mem_candidates.1 hnext with ⟨halive, hrun, _⟩
      rw [hc, (hsame _).1]
      refine ⟨?_, hrun⟩
      by_contra hmem
      exact absurd (hrun.symm.trans (h.table.rest next halive hmem).1) (by decide)
  refine ⟨h.sched.schedule hs, ?_, ⟨before, kids, ?_⟩, queue, a, d, ?_⟩
  · refine h.table.frame ⟨rfl, rfl, rfl, rfl, rfl, ⟨rfl, rfl⟩, hidle, fun p => (hsame p).2.2.1,
      fun p => (switched_ctx k p).2, fun p hp => Function.update_of_ne hp _ _⟩ ?_ (fun p hp => ?_)
      (fun p _ _ => ⟨(hsame p).1, (hsame p).2.2.2.1⟩) (fun _ => hcur.2) hcur.1 fun p _ hz => ?_
    · exact (switched_ctx k _).1.trans h.table.idle.2
    · change (k.switched.ctx p).call.Allows (m.proc p)
      rw [(switched_ctx k p).1]
      exact (h.table.status p hp).congr (hsame p).1 (hsame p).2.1
    · change (m.proc p).state ≠ _
      rwa [(hsame p).1]
  · refine hfamily.frame rfl rfl hidle (fun p => (hsame p).2.2.2) fun p _ hz => ?_
    rw [← (hsame p).1]
    exact hz
  · refine hpending.frame rfl rfl (fun p _ _ => ?_) (fun p _ => ?_)
      fun p _ => ⟨(hsame p).1, (hsame p).2.1⟩
    · exact iff_of_eq (congrArg (· = _) (switched_ctx k p).1)
    · exact iff_of_eq (congrArg (· = _) (switched_ctx k p).1)

end TriOS
