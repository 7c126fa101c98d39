import TriOS.Sync.Sem

/-!
# monitor.c — Hoare monitors

`cond_signal`, `cond_wait` and the code with which a routine enters and leaves a monitor, cut at the
calls of `schedule` inside `down`. The code between two cuts runs without interruption by another
process. `next_count` and `count` are plain numbers: they are at most the number of processes.
-/

namespace TriOS

open Outcome

/-- The semaphores of a `monitor_t`: `mutex`, `next` and the `sem` of each condition variable. They
are different variables. -/
structure Monitor where
  mutex : Nat
  next : Nat
  cvSem : Nat → Nat
  next_ne : next ≠ mutex
  cvSem_ne_mutex : ∀ cv, cvSem cv ≠ mutex
  cvSem_ne_next : ∀ cv, cvSem cv ≠ next
  cvSem_inj : ∀ cv cv', cvSem cv = cvSem cv' → cv = cv'

/-- The semaphores, `next_count`, and the field `count` of each condition variable. -/
structure MonitorState (Q : Type) where
  sync : Sync Q
  nextCount : Int
  count : Nat → Int

variable {Q : Type}

/-- The code in front of a routine of the monitor: `down(&(mtp->mutex))`. -/
def enterMonitor (mt : Monitor) (s : MonitorState Q) (w : Nat) :
    Outcome (Bool × MonitorState Q) := do
  let (blocked, sync) ← down s.sync mt.mutex w
  pure (blocked, { s with sync := sync })

/-- The code behind a routine of the monitor, which is also in `cond_wait`. -/
def leaveMonitor (cls : SchedClass Q) (mt : Monitor) (s : MonitorState Q) :
    Outcome (MonitorState Q) := do
  let sync ← up cls s.sync (if s.nextCount > 0 then mt.next else mt.mutex)
  pure { s with sync := sync }

/-- `cond_signal` after `down(&(cvp->owner->next))`. -/
def condSignalEnd (s : MonitorState Q) : MonitorState Q :=
  { s with nextCount := s.nextCount - 1 }

/-- `cond_signal` up to the call of `schedule` in `down`, or to its end. -/
def condSignal (cls : SchedClass Q) (mt : Monitor) (s : MonitorState Q) (cv w : Nat) :
    Outcome (Bool × MonitorState Q) :=
  if s.count cv > 0 then do
    let s := { s with nextCount := s.nextCount + 1 }
    let sync ← up cls s.sync (mt.cvSem cv)
    let (blocked, sync) ← down sync mt.next w
    let s := { s with sync := sync }
    pure (blocked, if blocked then s else condSignalEnd s)
  else pure (false, s)

/-- `cond_wait` after `down(&(cvp->sem))`. -/
def condWaitEnd (s : MonitorState Q) (cv : Nat) : MonitorState Q :=
  { s with count := Function.update s.count cv (s.count cv - 1) }

/-- `cond_wait` up to the call of `schedule` in `down`, or to its end. -/
def condWait (cls : SchedClass Q) (mt : Monitor) (s : MonitorState Q) (cv w : Nat) :
    Outcome (Bool × MonitorState Q) := do
  let s := { s with count := Function.update s.count cv (s.count cv + 1) }
  let s ← leaveMonitor cls mt s
  let (blocked, sync) ← down s.sync (mt.cvSem cv) w
  let s := { s with sync := sync }
  pure (blocked, if blocked then s else condWaitEnd s cv)

/-! ## Counting processes -/

/-- `n` processes have the property `P`. -/
def Counts (P : Nat → Prop) (n : Int) : Prop :=
  ∃ l : Finset Nat, (∀ p, p ∈ l ↔ P p) ∧ n = l.card

variable {P P' : Nat → Prop} {n : Int} {p : Nat}

theorem Counts.nonneg (h : Counts P n) : 0 ≤ n := by
  rcases h with ⟨l, _, rfl⟩
  exact Int.natCast_nonneg _

theorem Counts.exists_of_pos (h : Counts P n) (hn : 0 < n) : ∃ p, P p := by
  rcases h with ⟨l, hl, rfl⟩
  rcases Finset.card_pos.1 (Int.natCast_pos.1 hn) with ⟨p, hp⟩
  exact ⟨p, (hl p).1 hp⟩

theorem Counts.pos_of_exists (h : Counts P n) (hp : P p) : 0 < n := by
  rcases h with ⟨l, hl, rfl⟩
  exact Int.natCast_pos.2 (Finset.card_pos.2 ⟨p, (hl p).2 hp⟩)

theorem Counts.congr (h : Counts P n) (hiff : ∀ p, P' p ↔ P p) : Counts P' n := by
  rcases h with ⟨l, hl, rfl⟩
  exact ⟨l, fun p => (hl p).trans (hiff p).symm, rfl⟩

/-- One process more. -/
theorem Counts.insert (h : Counts P n) (hp : ¬ P p) (hiff : ∀ q, P' q ↔ q = p ∨ P q) :
    Counts P' (n + 1) := by
  rcases h with ⟨l, hl, rfl⟩
  refine ⟨Insert.insert p l, fun q => ?_, ?_⟩
  · rw [Finset.mem_insert, hl, hiff]
  · rw [Finset.card_insert_of_notMem fun hc => hp ((hl p).1 hc)]
    push_cast
    ring

/-- One process less. -/
theorem Counts.erase (h : Counts P n) (hp : P p) (hiff : ∀ q, P' q ↔ q ≠ p ∧ P q) :
    Counts P' (n - 1) := by
  rcases h with ⟨l, hl, rfl⟩
  refine ⟨l.erase p, fun q => ?_, ?_⟩
  · rw [Finset.mem_erase, hl, hiff]
  · have := Finset.card_erase_add_one ((hl p).2 hp)
    omega

theorem counts_zero (h : ∀ p, ¬ P p) : Counts P 0 :=
  ⟨∅, fun p => by simp [h p], rfl⟩

end TriOS
