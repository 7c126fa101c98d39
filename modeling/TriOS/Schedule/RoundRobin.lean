import TriOS.Libs.List
import TriOS.Library.Transition
import TriOS.Process.Proc

/-!
# default_sched_c.c — the round-robin scheduling class

`sched.c` of the kernel with one class, which keeps the processes that wait for the processor in a circular list
and takes the first of them. `proc_run` is a parameter: the kernel with this class has it as an exercise, without
a body.
-/

namespace TriOS.RoundRobin

open CircularList Outcome Transition

/-- The nodes of the run list: its head, and the `run_link` of each process. -/
inductive RunNode where
  | runList
  | runLink (p : Nat)
  deriving DecidableEq

/-- `struct proc_struct`, as far as scheduling uses it. `inRq` says that the field `rq` points to the run queue. -/
structure RrProc where
  state : ProcState
  waitState : UInt32
  needResched : Bool
  timeSlice : Int
  inRq : Bool

/-- `struct run_queue`. The processes that have been put into the queue and taken out of it are listed in order
besides. -/
structure RunQueue where
  links : Links RunNode
  procNum : Nat
  maxTimeSlice : Int
  enqueued : List Nat
  dequeued : List Nat

/-- The process descriptors, the variables `current` and `idleproc`, and the run queue. -/
structure Machine where
  proc : Nat → RrProc
  current : Nat
  idleproc : Nat
  rq : RunQueue

/-- Replace one process descriptor. -/
def Machine.setProc (m : Machine) (p : Nat) (v : RrProc) : Machine :=
  { m with proc := Function.update m.proc p v }

/-- `RR_init` -/
def rrInit (rq : RunQueue) : RunQueue :=
  { rq with links := listInit rq.links .runList, procNum := 0 }

/-- The time slice of a process that is put into the queue. -/
def refill (maxTimeSlice timeSlice : Int) : Int :=
  if timeSlice = 0 ∨ timeSlice > maxTimeSlice then maxTimeSlice else timeSlice

/-- `RR_enqueue` after its assertion. -/
def Machine.linkIn (m : Machine) (p : Nat) : Machine :=
  { m.setProc p { m.proc p with timeSlice := refill m.rq.maxTimeSlice (m.proc p).timeSlice, inRq := true } with
    rq := { m.rq with
      links := listAddBefore m.rq.links .runList (.runLink p)
      procNum := m.rq.procNum + 1
      enqueued := m.rq.enqueued ++ [p] } }

/-- `RR_enqueue` -/
def rrEnqueue (m : Machine) (p : Nat) : Outcome Machine := do
  assert (listEmpty m.rq.links (.runLink p))
  pure (m.linkIn p)

/-- `RR_dequeue` after its assertion. -/
def Machine.linkOut (m : Machine) (p procNum : Nat) : Machine :=
  { m with
    rq := { m.rq with
      links := listDelInit m.rq.links (.runLink p)
      procNum := procNum
      dequeued := m.rq.dequeued ++ [p] } }

/-- `RR_dequeue` -/
def rrDequeue (m : Machine) (p : Nat) : Outcome Machine := do
  assert (¬ listEmpty m.rq.links (.runLink p) ∧ (m.proc p).inRq = true)
  let procNum ← sub m.rq.procNum 1
  pure (m.linkOut p procNum)

/-- `RR_pick_next` -/
def rrPickNext (m : Machine) : Option Nat :=
  match listNext m.rq.links .runList with
  | .runList => none
  | .runLink p => some p

/-- `RR_proc_tick` -/
def rrProcTick (proc : RrProc) : RrProc :=
  let proc := if proc.timeSlice > 0 then { proc with timeSlice := proc.timeSlice - 1 } else proc
  if proc.timeSlice = 0 then { proc with needResched := true } else proc

/-- `sched_class_enqueue` -/
def schedClassEnqueue (m : Machine) (p : Nat) : Outcome Machine :=
  if p ≠ m.idleproc then rrEnqueue m p else pure m

/-- `sched_class_proc_tick` -/
def schedClassProcTick (m : Machine) (p : Nat) : Machine :=
  if p ≠ m.idleproc then m.setProc p (rrProcTick (m.proc p))
  else m.setProc p { m.proc p with needResched := true }

/-- `wakeup_proc` -/
def wakeupProc (m : Machine) (p : Nat) : Outcome Machine := do
  assert ((m.proc p).state ≠ .zombie)
  if (m.proc p).state ≠ .runnable then
    let m := m.setProc p { m.proc p with state := .runnable, waitState := 0 }
    if p ≠ m.current then schedClassEnqueue m p else pure m
  else pure m

/-- `schedule` -/
def schedule (procRun : Machine → Nat → Machine) (m : Machine) : Outcome Machine := do
  let m := m.setProc m.current { m.proc m.current with needResched := false }
  let m ← (if (m.proc m.current).state = .runnable then schedClassEnqueue m m.current else pure m)
  match rrPickNext m with
  | some next =>
      let m ← rrDequeue m next
      pure (if next ≠ m.current then procRun m next else m)
  | none => pure (if m.idleproc ≠ m.current then procRun m m.idleproc else m)

/-- What `proc_run` is for: the process runs on the processor. -/
def Switches (procRun : Machine → Nat → Machine) : Prop :=
  ∀ m p, p ≠ m.current → procRun m p = { m with current := p }

/-! ## Runs -/

/-- The machine, the descriptors that are allocated, and the ticks since the last pick. -/
structure Sys where
  machine : Machine
  alive : Finset Nat
  ticks : Nat

/-- What the kernel does to the fields that scheduling depends on. -/
inductive Op where
  | alloc (p : Nat) (proc : RrProc)
  | wakeup (p : Nat)
  | sleep (waitState : UInt32)
  | exit
  | yield
  | schedule
  | tick
  | free (p : Nat)

/-- Another state of the current process. -/
def Machine.setState (m : Machine) (state : ProcState) (waitState : UInt32) : Machine :=
  m.setProc m.current { m.proc m.current with state := state, waitState := waitState }

/-- A descriptor with its fields, and a `run_link` that is not in a list. -/
def Machine.alloc (m : Machine) (p : Nat) (proc : RrProc) : Machine :=
  { m.setProc p proc with rq := { m.rq with links := listInit m.rq.links (.runLink p) } }

/-- One action. A new process has a time slice that is not negative, and no process is freed that is in the queue or
runs. -/
def Step (procRun : Machine → Nat → Machine) (s : Sys) (op : Op) (t : Sys) : Prop :=
  match op with
  | .alloc p proc =>
      p ∉ s.alive ∧ proc.state = .uninit ∧ 0 ≤ proc.timeSlice ∧
        t = { s with machine := s.machine.alloc p proc, alive := insert p s.alive }
  | .wakeup p => p ∈ s.alive ∧ ∃ m, wakeupProc s.machine p = done m ∧ t = { s with machine := m }
  | .sleep waitState => t = { s with machine := s.machine.setState .sleeping waitState }
  | .exit => t = { s with machine := s.machine.setState .zombie (s.machine.proc s.machine.current).waitState }
  | .yield =>
      t = { s with machine :=
        s.machine.setProc s.machine.current { s.machine.proc s.machine.current with needResched := true } }
  | .schedule => ∃ m, RoundRobin.schedule procRun s.machine = done m ∧ t = { s with machine := m, ticks := 0 }
  | .tick => t = { s with machine := schedClassProcTick s.machine s.machine.current, ticks := s.ticks + 1 }
  | .free p =>
      (p ≠ s.machine.current ∧ p ≠ s.machine.idleproc ∧ listEmpty s.machine.rq.links (.runLink p)) ∧
        t = { s with alive := s.alive.erase p }

/-- The kernel after `sched_init` and `proc_init`: the idle process runs. -/
def start (links : Links RunNode) (proc : Nat → RrProc) (idle : Nat) (maxTimeSlice : Int) : Sys :=
  { machine :=
      { proc := proc
        current := idle
        idleproc := idle
        rq := rrInit
          { links := listInit links (.runLink idle)
            procNum := 0
            maxTimeSlice := maxTimeSlice
            enqueued := []
            dequeued := [] } }
    alive := {idle}
    ticks := 0 }

end TriOS.RoundRobin
