import TriOS.Libs.Hash
import TriOS.Process.Pid
import TriOS.Process.Tree
import TriOS.Schedule.SchedRuns
import TriOS.Schedule.TimerRuns
import TriOS.Sync.Sem

/-!
# proc.c — fork, exit, wait, sleep and kill

The process part of the kernel on top of the scheduler, the timer list and the semaphores. A system
call is cut at its calls of `schedule` and of `down`; between two cuts no other process runs. The
lists `proc_list` and `hash_list[i]` are given by their processes, in the order of the list.
-/

namespace TriOS

open Outcome

/-- The system call in which a process is, as far as it can block there. -/
inductive Call where
  | user
  | wait (pid : Int)
  | sleep (timer : Nat)
  | down (sem w : Nat)
  | exited
  deriving DecidableEq, Repr

/-- Where a process is: its system call, whether that has called `schedule` already, and the child
that it is making in `do_fork`. -/
structure Context where
  call : Call
  switched : Bool
  forking : Option Nat
  deriving DecidableEq, Repr

/-- The context of a process that is in no system call. -/
def Context.start : Context :=
  { call := Call.user, switched := false, forking := none }

/-- The state of the kernel. `alive` are the process descriptors that are allocated. -/
structure Kern where
  sync : Sync RunQueue
  timers : TimerList
  alive : Finset Nat
  initproc : Option Nat
  procList : List Nat
  hashList : Nat → List Nat
  nrProcess : Int
  lastPid : Int
  nextSafe : Int
  ctx : Nat → Context

/-- `HASH_SHIFT` -/
def hashShift : UInt32 := 10

/-- `pid_hashfn` -/
def pidHashfn (pid : Int) : Nat :=
  (hash32 (UInt32.ofInt pid) hashShift).toNat

/-- `E_KILLED` -/
def eKilled : Int := 9

/-- The machine of the kernel. -/
def Kern.machine (k : Kern) : Machine RunQueue :=
  k.sync.machine

/-- `current` -/
def Kern.current (k : Kern) : Nat :=
  k.machine.current

/-- Replace the machine. -/
def Kern.setMachine (k : Kern) (m : Machine RunQueue) : Kern :=
  { k with sync := { k.sync with machine := m } }

/-- The current process is in another system call now. -/
def Kern.enter (k : Kern) (call : Call) : Kern :=
  let ctx := { k.ctx k.current with call := call, switched := false }
  { k with ctx := Function.update k.ctx k.current ctx }

/-- The current process is making a child in `do_fork`, or none. -/
def Kern.setForking (k : Kern) (child : Option Nat) : Kern :=
  let ctx := { k.ctx k.current with forking := child }
  { k with ctx := Function.update k.ctx k.current ctx }

/-- The current process calls `schedule` in its system call. -/
def Kern.switched (k : Kern) : Kern :=
  let ctx := { k.ctx k.current with switched := true }
  { k with ctx := Function.update k.ctx k.current ctx }

/-- `find_proc` -/
def findProc (k : Kern) (pid : Int) : Option Nat :=
  if 0 < pid ∧ pid < maxPid then
    (k.hashList (pidHashfn pid)).find? fun p => (k.machine.proc p).pid = pid
  else none

/-- `hash_proc` of a process with the pid. -/
def hashProc (hashList : Nat → List Nat) (p : Nat) (pid : Int) : Nat → List Nat :=
  Function.update hashList (pidHashfn pid) (p :: hashList (pidHashfn pid))

/-- `unhash_proc`: the process is taken out of the list that it is in. -/
def unhashProc (hashList : Nat → List Nat) (p : Nat) : Nat → List Nat :=
  fun i => (hashList i).erase p

/-! ## do_fork -/

/-- `do_fork` up to `copy_mm`: the descriptor `child` is allocated in memory that holds `stride` and
`priority`. -/
def forkStart (k : Kern) (child : Nat) (stride priority : UInt32) : Outcome Kern := do
  let m := k.machine.setProc child (allocProc stride priority)
  let m := m.setProc child { m.proc child with parent := some m.current }
  assert ((m.proc m.current).waitState = 0)
  let k := { k.setMachine m with alive := insert child k.alive }
  pure (k.setForking (some child))

/-- `do_fork` from `bad_fork_cleanup_proc` on. -/
def forkFail (k : Kern) (child : Nat) : Kern :=
  ({ k with alive := k.alive.erase child }).setForking none

/-- `do_fork` from `get_pid` to `wakeup_proc`. -/
def forkLink (bound : Nat) (k : Kern) (child : Nat) : Outcome Kern := do
  let (lastPid, nextSafe) ←
    getPid bound (k.procList.map fun p => (k.machine.proc p).pid) k.lastPid k.nextSafe
  let m := k.machine.setProc child { k.machine.proc child with pid := lastPid }
  let procs ← linkChild m.proc child
  let m ← wakeupProc defaultSchedClass { m with proc := procs } child
  let k :=
    { k.setMachine m with
      procList := child :: k.procList
      hashList := hashProc k.hashList child lastPid
      nrProcess := k.nrProcess + 1
      lastPid := lastPid
      nextSafe := nextSafe }
  pure (k.setForking none)

/-- `do_fork` from `get_pid` on. When `copy_files` fails the child is freed although it is linked and
awake. -/
def forkFinish (bound : Nat) (k : Kern) (child : Nat) (filesOk : Bool) : Outcome Kern := do
  let k ← forkLink bound k child
  pure (if filesOk then k else { k with alive := k.alive.erase child })

/-- The rest of `proc_init`: the idle process makes the process `init`. -/
def makeInit (bound : Nat) (k : Kern) (child : Nat) (stride priority : UInt32) : Outcome Kern := do
  let k ← forkStart k child stride priority
  let k ← forkLink bound k child
  let init := findProc k k.lastPid
  assert (init.map (fun p => (k.machine.proc p).pid) = some 1)
  pure { k with initproc := init }

/-! ## do_exit -/

/-- `wakeup_proc` of a process that waits for its children. -/
def wakeIfWaiting (m : Machine RunQueue) (p : Nat) : Outcome (Machine RunQueue) :=
  if (m.proc p).waitState = wtChild then wakeupProc defaultSchedClass m p else pure m

/-- The end of a round of the loop of `do_exit`: `initproc` hears of a zombie. -/
def wakeForZombie (m : Machine RunQueue) (child init : Nat) : Outcome (Machine RunQueue) :=
  if (m.proc child).state = ProcState.zombie then wakeIfWaiting m init else pure m

/-- The loop of `do_exit`: `initproc` adopts the children of the current process. -/
def reparent : Nat → Machine RunQueue → Option Nat → Outcome (Machine RunQueue)
  | 0, _, _ => fuel
  | bound + 1, m, initproc =>
      match (m.proc m.current).cptr with
      | none => pure m
      | some child =>
          match initproc with
          | none => panic
          | some init => do
              let m := { m with proc := adoptChild m.proc m.current init child }
              let m ← wakeForZombie m child init
              reparent bound m initproc

/-- `do_exit` up to its call of `schedule`. -/
def doExit (bound : Nat) (k : Kern) (code : Int) : Outcome Kern := do
  assert (k.current ≠ k.machine.idleproc)
  assert (some k.current ≠ k.initproc)
  let m := k.machine.setProc k.current
    { k.machine.proc k.current with state := ProcState.zombie, exitCode := code }
  match (m.proc m.current).parent with
  | none => panic
  | some parent => do
      let m ← wakeIfWaiting m parent
      let m ← reparent bound m k.initproc
      pure ((k.setMachine m).enter Call.exited)

/-! ## do_wait -/

/-- The loop of `do_wait` over the children: whether there is one, and the first zombie. -/
def zombieChild (procs : Nat → Proc) : Nat → Option Nat → Bool → Outcome (Bool × Option Nat)
  | 0, _, _ => fuel
  | _ + 1, none, haskid => pure (haskid, none)
  | bound + 1, some p, _ =>
      if (procs p).state = ProcState.zombie then pure (true, some p)
      else zombieChild procs bound (procs p).optr true

/-- The search of `do_wait`. -/
def waitSearch (bound : Nat) (k : Kern) (pid : Int) : Outcome (Bool × Option Nat) :=
  if pid ≠ 0 then
    match findProc k pid with
    | none => pure (false, none)
    | some p =>
        if (k.machine.proc p).parent = some k.current then
          pure (true, if (k.machine.proc p).state = ProcState.zombie then some p else none)
        else pure (false, none)
  else zombieChild k.machine.proc bound (k.machine.proc k.current).cptr false

/-- What a pass of `do_wait` comes to: a child is freed and its exit code is stored, the process goes
to sleep, or there is no such child. -/
inductive WaitResult where
  | reaped (p : Nat) (code : Int)
  | asleep
  | badProc
  deriving DecidableEq, Repr

/-- `do_wait` from `found` on. The stack of the child is freed, and with it the child's context. -/
def reap (k : Kern) (p : Nat) : Outcome (WaitResult × Kern) := do
  assert (p ≠ k.machine.idleproc ∧ some p ≠ k.initproc)
  let code := (k.machine.proc p).exitCode
  let procs ← unlinkChild k.machine.proc p
  let k :=
    { k.setMachine { k.machine with proc := procs } with
      procList := k.procList.erase p
      hashList := unhashProc k.hashList p
      nrProcess := k.nrProcess - 1
      alive := k.alive.erase p
      ctx := Function.update k.ctx p Context.start }
  pure (WaitResult.reaped p code, k.enter Call.user)

/-- `do_wait` from `repeat` to its call of `schedule`, or to its end. -/
def doWait (bound : Nat) (k : Kern) (pid : Int) : Outcome (WaitResult × Kern) := do
  let (haskid, found) ← waitSearch bound k pid
  match found with
  | some p => reap k p
  | none =>
      if haskid then
        let m := k.machine.setProc k.current
          { k.machine.proc k.current with state := ProcState.sleeping, waitState := wtChild }
        pure (WaitResult.asleep, (k.setMachine m).enter (Call.wait pid))
      else pure (WaitResult.badProc, k.enter Call.user)

/-! ## The steps of the kernel -/

/-- The steps. `procInit` is the end of `proc_init`; `wakeup` is a call of `wakeup_proc` for a process
that is not inside `down`. A pass of `do_wait` comes with its result; `waitResume none` is the exit of
a process that was killed while it waited. -/
inductive KernOp where
  | procInit (child : Nat) (stride priority : UInt32)
  | schedule
  | yield
  | setPriority (priority : UInt32)
  | tick
  | kill (pid : Int)
  | wakeup (p : Nat)
  | forkStart (child : Nat) (stride priority : UInt32)
  | forkFail
  | forkFinish (filesOk : Bool)
  | exit (code : Int)
  | wait (pid : Int) (result : WaitResult)
  | waitResume (result : Option WaitResult)
  | sleep (time : Nat)
  | sleepEnd
  | up (sem : Nat)
  | down (sem : Nat)
  | downResume
  | tryDown (sem : Nat)
  deriving DecidableEq, Repr

/-- The current process is in no system call but, perhaps, in `do_fork`. -/
def Kern.InUser (k : Kern) : Prop :=
  (k.ctx k.current).call = Call.user

/-- The current process can start a system call. -/
def Kern.Idle (k : Kern) : Prop :=
  k.InUser ∧ (k.ctx k.current).forking = none

/-- The current process has come back from `schedule` in the system call. -/
def Kern.Back (k : Kern) (call : Call) : Prop :=
  (k.ctx k.current).call = call ∧ (k.ctx k.current).switched = true

/-- One step. The idle process forks and calls `schedule`, and never blocks. A timer and a wait are
variables on the stack of the process: no other process uses them. -/
def KernStep (k : Kern) (op : KernOp) (t : Kern) : Prop :=
  match op with
  | KernOp.procInit child stride priority =>
      (k.Idle ∧ k.current = k.machine.idleproc ∧ k.initproc = none ∧ child ∉ k.alive) ∧
        Returns (fun bound => makeInit bound k child stride priority) t
  | KernOp.schedule =>
      (k.InUser ∨ (k.ctx k.current).switched = false) ∧
        ∃ m, TriOS.schedule defaultSchedClass k.machine = done m ∧ t = k.switched.setMachine m
  | KernOp.yield => t = k.setMachine (doYield k.machine)
  | KernOp.setPriority priority => t = k.setMachine (lab6SetPriority k.machine priority)
  | KernOp.tick =>
      ∃ woken timers m,
        Returns (fun bound => runTimerList bound defaultSchedClass k.timers k.machine)
          (woken, timers, m) ∧
        t = { k.setMachine m with timers := timers }
  | KernOp.kill pid =>
      match findProc k pid with
      | none => t = k
      | some p => ∃ r m, killProc defaultSchedClass k.machine p = done (r, m) ∧ t = k.setMachine m
  | KernOp.wakeup p =>
      (p ∈ k.procList ∧ ∀ sem w, (k.ctx p).call ≠ Call.down sem w) ∧
        ∃ m, wakeupProc defaultSchedClass k.machine p = done m ∧ t = k.setMachine m
  | KernOp.forkStart child stride priority =>
      (k.Idle ∧ k.nrProcess < maxProcess ∧ child ∉ k.alive) ∧
        TriOS.forkStart k child stride priority = done t
  | KernOp.forkFail =>
      ∃ child, (k.InUser ∧ (k.ctx k.current).forking = some child) ∧ t = TriOS.forkFail k child
  | KernOp.forkFinish filesOk =>
      ∃ child, (k.InUser ∧ (k.ctx k.current).forking = some child) ∧
        Returns (fun bound => TriOS.forkFinish bound k child filesOk) t
  | KernOp.exit code => k.Idle ∧ Returns (fun bound => doExit bound k code) t
  | KernOp.wait pid result =>
      (k.Idle ∧ k.current ≠ k.machine.idleproc) ∧
        Returns (fun bound => doWait bound k pid) (result, t)
  | KernOp.waitResume result =>
      ∃ pid, k.Back (Call.wait pid) ∧
        if (k.machine.proc k.current).exiting then
          result = none ∧ Returns (fun bound => doExit bound k (-eKilled)) t
        else ∃ r, result = some r ∧ Returns (fun bound => doWait bound k pid) (r, t)
  | KernOp.sleep time =>
      (k.Idle ∧ k.current ≠ k.machine.idleproc) ∧
        if time = 0 then t = k
        else ∃ timer s, (∀ p, (k.ctx p).call ≠ Call.sleep timer) ∧ time < 2 ^ 32 ∧
          Returns (fun bound => startSleep bound ⟨k.timers, k.machine⟩ timer time) s ∧
          t = ({ k.setMachine s.machine with timers := s.timers }).enter (Call.sleep timer)
  | KernOp.sleepEnd =>
      ∃ timer timers, k.Back (Call.sleep timer) ∧ delTimer k.timers timer = done timers ∧
        t = ({ k with timers := timers }).enter Call.user
  | KernOp.up sem =>
      k.InUser ∧ ∃ sync, TriOS.up defaultSchedClass k.sync sem = done sync ∧
        t = { k with sync := sync }
  | KernOp.down sem =>
      (k.InUser ∧ (k.current ≠ k.machine.idleproc ∨ 0 < k.sync.value sem)) ∧
        ∃ w blocked sync, (∀ p sem', (k.ctx p).call ≠ Call.down sem' w) ∧
          TriOS.down k.sync sem w = done (blocked, sync) ∧
          t = if blocked then ({ k with sync := sync }).enter (Call.down sem w)
            else { k with sync := sync }
  | KernOp.downResume =>
      ∃ sem w sync, k.Back (Call.down sem w) ∧ TriOS.downResume k.sync sem w = done sync ∧
        t = ({ k with sync := sync }).enter Call.user
  | KernOp.tryDown sem =>
      k.InUser ∧ ∃ taken sync, TriOS.tryDown k.sync sem = (taken, sync) ∧
        t = { k with sync := sync }

end TriOS
