import Mathlib

/-!
# proc.h — process descriptors

The fields of `struct proc_struct` that scheduling, waiting and the process tree use. A process is
the address of its descriptor, a `Nat`; `NULL` is `none`. The fields that belong to the scheduling
class (`need_resched`, `time_slice`, `lab6_stride`, `lab6_priority`) are grouped in `RunInfo`, so
that a scheduling class cannot touch anything else.
-/

namespace TriOS

/-- `enum proc_state` -/
inductive ProcState where
  | uninit
  | sleeping
  | runnable
  | zombie
  deriving DecidableEq, Repr

/-- `WT_INTERRUPTED` -/
def wtInterrupted : UInt32 := 0x80000000

/-- `WT_CHILD` -/
def wtChild : UInt32 := 0x00000001 ||| wtInterrupted

/-- `WT_KSEM` -/
def wtKsem : UInt32 := 0x00000100

/-- `WT_TIMER` -/
def wtTimer : UInt32 := 0x00000002 ||| wtInterrupted

/-- The fields of a process that its scheduling class reads and writes. -/
structure RunInfo where
  needResched : Bool
  timeSlice : Int
  stride : UInt32
  priority : UInt32
  deriving DecidableEq, Repr

/-- `struct proc_struct` -/
structure Proc where
  state : ProcState
  pid : Int
  exiting : Bool
  waitState : UInt32
  exitCode : Int
  parent : Option Nat
  cptr : Option Nat
  yptr : Option Nat
  optr : Option Nat
  run : RunInfo
  deriving DecidableEq, Repr

/-- `alloc_proc`. The stride and the priority are not set: they are what the memory holds. -/
def allocProc (stride priority : UInt32) : Proc :=
  { state := ProcState.uninit
    pid := -1
    exiting := false
    waitState := 0
    exitCode := 0
    parent := none
    cptr := none
    yptr := none
    optr := none
    run := { needResched := false, timeSlice := 0, stride := stride, priority := priority } }

/-- `wait_state & WT_INTERRUPTED` -/
def interruptible (p : Proc) : Prop :=
  p.waitState &&& wtInterrupted ≠ 0

instance (p : Proc) : Decidable (interruptible p) := by
  unfold interruptible
  infer_instance

end TriOS
