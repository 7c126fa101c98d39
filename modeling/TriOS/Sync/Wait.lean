import TriOS.Libs.List
import TriOS.Schedule.Sched

/-!
# wait.c — wait queues

A wait queue and a `wait_t` are named by their addresses; their list nodes are `head queue` and
`wait w`. The functions that the semaphores use are given here in the order of the source.
-/

namespace TriOS

open CircularList Outcome

/-- The list nodes of wait queues. -/
inductive WaitNode where
  | head (queue : Nat)
  | wait (w : Nat)
  deriving DecidableEq, Repr

/-- `wait_t` without its link. -/
structure Wait where
  proc : Nat
  wakeupFlags : UInt32
  waitQueue : Nat
  deriving DecidableEq, Repr

/-- All wait queues and all `wait_t`. -/
structure WaitTable where
  link : Links WaitNode
  wait : Nat → Wait

variable {Q : Type}

/-- `wait_init` -/
def waitInit (t : WaitTable) (w proc : Nat) : WaitTable :=
  { link := listInit t.link (WaitNode.wait w)
    wait := Function.update t.wait w { t.wait w with proc := proc, wakeupFlags := wtInterrupted } }

/-- `wait_queue_init` -/
def waitQueueInit (t : WaitTable) (queue : Nat) : WaitTable :=
  { t with link := listInit t.link (WaitNode.head queue) }

/-- `wait_queue_add` -/
def waitQueueAdd (t : WaitTable) (queue w : Nat) : Outcome WaitTable := do
  assert (listEmpty t.link (WaitNode.wait w))
  pure { link := listAddBefore t.link (WaitNode.head queue) (WaitNode.wait w)
         wait := Function.update t.wait w { t.wait w with waitQueue := queue } }

/-- `wait_queue_del` -/
def waitQueueDel (t : WaitTable) (queue w : Nat) : Outcome WaitTable := do
  assert (¬ listEmpty t.link (WaitNode.wait w) ∧ (t.wait w).waitQueue = queue)
  pure { t with link := listDelInit t.link (WaitNode.wait w) }

/-- `wait_queue_first` -/
def waitQueueFirst (t : WaitTable) (queue : Nat) : Option Nat :=
  match listNext t.link (WaitNode.head queue) with
  | WaitNode.head _ => none
  | WaitNode.wait w => some w

/-- `wait_in_queue` -/
def waitInQueue (t : WaitTable) (w : Nat) : Prop :=
  ¬ listEmpty t.link (WaitNode.wait w)

instance (t : WaitTable) (w : Nat) : Decidable (waitInQueue t w) := by
  unfold waitInQueue
  infer_instance

/-- `wakeup_wait` -/
def wakeupWait (cls : SchedClass Q) (t : WaitTable) (m : Machine Q) (queue w : Nat)
    (wakeupFlags : UInt32) (del : Bool) : Outcome (WaitTable × Machine Q) := do
  let t ← if del then waitQueueDel t queue w else pure t
  let t := { t with wait := Function.update t.wait w { t.wait w with wakeupFlags := wakeupFlags } }
  let m ← wakeupProc cls m (t.wait w).proc
  pure (t, m)

/-- `wait_current_set` -/
def waitCurrentSet (t : WaitTable) (m : Machine Q) (queue w : Nat) (waitState : UInt32) :
    Outcome (WaitTable × Machine Q) := do
  let t := waitInit t w m.current
  let m := m.setProc m.current
    { m.proc m.current with state := ProcState.sleeping, waitState := waitState }
  let t ← waitQueueAdd t queue w
  pure (t, m)

/-- `wait_current_del` -/
def waitCurrentDel (t : WaitTable) (queue w : Nat) : Outcome WaitTable :=
  if waitInQueue t w then waitQueueDel t queue w else pure t

end TriOS
