import TriOS.Libs.SkewHeap
import TriOS.Schedule.Sched

/-!
# default_sched_stride.c — the stride scheduling class

The run pool is the heap of the processes that wait for the processor. `run_list` is left out: the
class links processes into it and out of it, but never reads it. Strides are 32-bit and wrap.
-/

namespace TriOS

/-- `struct run_queue` -/
structure RunQueue where
  pool : SkewHeap Nat
  procNum : Nat
  maxTimeSlice : Int
  deriving Repr

/-- `BIG_STRIDE` -/
def bigStride : UInt32 := 100000

/-- `MAX_TIME_SLICE` -/
def maxTimeSlice : Int := 5

/-- The difference of two unsigned numbers as an `int32_t`. -/
def signedDiff (a b : UInt32) : Int :=
  (a - b).toBitVec.toInt

/-- `proc_stride_comp_f` -/
def procStrideCompF (info : Nat → RunInfo) (p q : Nat) : Int :=
  let c := signedDiff (info p).stride (info q).stride
  if c > 0 then 1
  else if c = 0 then 0
  else -1

/-- `stride_init` -/
def strideInit (rq : RunQueue) : RunQueue :=
  { rq with pool := SkewHeap.nil, procNum := 0 }

/-- `stride_enqueue` -/
def strideEnqueue (rq : RunQueue) (info : Nat → RunInfo) (p : Nat) : RunQueue × RunInfo :=
  let run :=
    if (info p).timeSlice = 0 ∨ (info p).timeSlice > rq.maxTimeSlice then
      { info p with timeSlice := rq.maxTimeSlice }
    else info p
  ({ rq with
      pool := SkewHeap.insert (procStrideCompF info) rq.pool p
      procNum := rq.procNum + 1 }, run)

/-- `stride_dequeue` -/
def strideDequeue (rq : RunQueue) (info : Nat → RunInfo) (p : Nat) : RunQueue :=
  { rq with
    pool := SkewHeap.remove (procStrideCompF info) rq.pool p
    procNum := rq.procNum - 1 }

/-- `BIG_STRIDE / priority`. For a divisor of 0 the division of the machine gives all ones. -/
def stridePass (priority : UInt32) : UInt32 :=
  if priority = 0 then 0xFFFFFFFF else bigStride / priority

/-- `stride_pick_next` -/
def stridePickNext (rq : RunQueue) (info : Nat → RunInfo) : Outcome (Option (Nat × RunInfo)) :=
  match SkewHeap.root rq.pool with
  | none => pure none
  | some p =>
      pure (some (p, { info p with stride := (info p).stride + stridePass (info p).priority }))

/-- `stride_proc_tick` -/
def strideProcTick (run : RunInfo) : RunInfo :=
  let run := if run.timeSlice > 0 then { run with timeSlice := run.timeSlice - 1 } else run
  if run.timeSlice = 0 then { run with needResched := true } else run

/-- `default_sched_class` -/
def defaultSchedClass : SchedClass RunQueue where
  init := strideInit
  enqueue := strideEnqueue
  dequeue := strideDequeue
  pickNext := stridePickNext
  procTick := strideProcTick

end TriOS
