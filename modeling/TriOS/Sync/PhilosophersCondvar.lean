import TriOS.Sync.MonitorDiscipline
import TriOS.Sync.PhilosophersSema

/-!
# check_sync.c — the philosophers with a monitor

The point of a philosopher is the part that it runs next, also while it is in the middle of `down`:
the `MonitorPc` of its process says where it waits. Between any two parts the processor can go to
another process.
-/

namespace TriOS

open CircularList Outcome Transition PhiState

/-- The monitor `mt` and `state_condvar`. -/
structure PhiCondvar (Q : Type) (n : Nat) where
  mon : MonitorState Q
  state : Fin n → PhiState

variable {Q : Type} {n : Nat}

/-- `phi_test_condvar`, up to the call of `schedule` in `cond_signal`. -/
def phiTestCondvar (cls : SchedClass Q) (mt : Monitor) (v : PhiCondvar Q n) (i : Fin n) (w : Nat) :
    Outcome (Bool × PhiCondvar Q n) :=
  if MayEat v.state i then do
    let state := Function.update v.state i eating
    let (blocked, mon) ← condSignal cls mt v.mon i w
    pure (blocked, { mon := mon, state := state })
  else pure (false, v)

/-- The code in front of the two routines. -/
def PhiCondvar.enter (mt : Monitor) (v : PhiCondvar Q n) (w : Nat) :
    Outcome (Bool × PhiCondvar Q n) := do
  let (blocked, mon) ← enterMonitor mt v.mon w
  pure (blocked, { v with mon := mon })

/-- The code behind the two routines. -/
def PhiCondvar.leave (cls : SchedClass Q) (mt : Monitor) (v : PhiCondvar Q n) :
    Outcome (Bool × PhiCondvar Q n) := do
  let mon ← leaveMonitor cls mt v.mon
  pure (false, { v with mon := mon })

/-- `phi_take_forks_condvar` and `phi_put_forks_condvar` in parts. The result says whether the process
has to wait in `down`. -/
def phiCondvarPart (cls : SchedClass Q) (mt : Monitor) (v : PhiCondvar Q n) (i : Fin n) (w : Nat) :
    PhiPoint → Outcome (Bool × PhiCondvar Q n)
  | PhiPoint.loop => pure (false, v)
  | PhiPoint.take => v.enter mt w
  | PhiPoint.takeTest =>
      phiTestCondvar cls mt { v with state := Function.update v.state i hungry } i w
  | PhiPoint.takeWait =>
      if v.state i = hungry then do
        let (blocked, mon) ← condWait cls mt v.mon i w
        pure (blocked, { v with mon := mon })
      else pure (false, v)
  | PhiPoint.takeLeave => v.leave cls mt
  | PhiPoint.put => v.enter mt w
  | PhiPoint.putLeft =>
      phiTestCondvar cls mt { v with state := Function.update v.state i thinking } (leftOf i) w
  | PhiPoint.putRight => phiTestCondvar cls mt v (rightOf i) w
  | PhiPoint.putLeave => v.leave cls mt
  | PhiPoint.quit => pure (false, v)

/-- The part that comes next. -/
def Philosopher.nextCondvar (times : Nat) (x : Philosopher) : Philosopher :=
  match x.point with
  | PhiPoint.loop =>
      { point := if x.iter < times then PhiPoint.take else PhiPoint.quit, iter := x.iter + 1 }
  | PhiPoint.take => { x with point := PhiPoint.takeTest }
  | PhiPoint.takeTest => { x with point := PhiPoint.takeWait }
  | PhiPoint.takeWait => { x with point := PhiPoint.takeLeave }
  | PhiPoint.takeLeave => { x with point := PhiPoint.put }
  | PhiPoint.put => { x with point := PhiPoint.putLeft }
  | PhiPoint.putLeft => { x with point := PhiPoint.putRight }
  | PhiPoint.putRight => { x with point := PhiPoint.putLeave }
  | PhiPoint.putLeave => { x with point := PhiPoint.loop }
  | PhiPoint.quit => x

/-- Where the process is after a part that called `schedule`: in which `down`, with the wait `w`. -/
def PhiPoint.blockedPc (i : Fin n) (w : Nat) : PhiPoint → MonitorPc
  | take => MonitorPc.entering w
  | put => MonitorPc.entering w
  | takeWait => MonitorPc.waiting i w
  | _ => MonitorPc.signalling w

/-- Where the process is after a part that ran to its end. -/
def PhiPoint.donePc : PhiPoint → MonitorPc
  | loop => MonitorPc.outside
  | takeLeave => MonitorPc.outside
  | putLeave => MonitorPc.outside
  | quit => MonitorPc.outside
  | _ => MonitorPc.active

/-- The monitor with the processes that use it, `state_condvar`, and the philosophers. -/
structure PhiCondvarSys (Q : Type) (n : Nat) where
  mon : MonitorSys Q
  state : Fin n → PhiState
  phil : Fin n → Philosopher

/-- The system after a part of `i` has run, with the wait `w` if it called `schedule`. -/
def PhiCondvarSys.after (seats : Seats n) (times : Nat) (s : PhiCondvarSys Q n) (i : Fin n)
    (w : Nat) (r : Bool × PhiCondvar Q n) : PhiCondvarSys Q n where
  mon :=
    { st := r.2.mon
      pc := Function.update s.mon.pc (seats.proc i)
        (if r.1 then (s.phil i).point.blockedPc i w else (s.phil i).point.donePc) }
  state := r.2.state
  phil := Function.update s.phil i ((s.phil i).nextCondvar times)

/-- One action. -/
def PhiCondvarStep (cls : SchedClass Q) (mt : Monitor) (seats : Seats n) (times : Nat)
    (s : PhiCondvarSys Q n) (op : PhiOp n) (t : PhiCondvarSys Q n) : Prop :=
  match op with
  | PhiOp.act i =>
      Runs s.mon (seats.proc i) ∧ s.mon.inDown mt (seats.proc i) = none ∧
        (s.phil i).point ≠ PhiPoint.quit ∧ ∃ w r, UnusedWait mt s.mon w ∧
          phiCondvarPart cls mt ⟨s.mon.st, s.state⟩ i w (s.phil i).point = done r ∧
          t = s.after seats times i w r
  | PhiOp.resume i =>
      (∃ cv, MonitorStep cls mt s.mon (MonitorOp.resume (seats.proc i) cv) t.mon) ∧
        t.state = s.state ∧ t.phil = s.phil
  | PhiOp.switch p =>
      MonitorStep cls mt s.mon (MonitorOp.switch p) t.mon ∧ t.state = s.state ∧ t.phil = s.phil
  | PhiOp.kill p =>
      MonitorStep cls mt s.mon (MonitorOp.kill p) t.mon ∧ t.state = s.state ∧ t.phil = s.phil
  | PhiOp.other =>
      MonitorStep cls mt s.mon MonitorOp.other t.mon ∧ t.state = s.state ∧ t.phil = s.phil

/-! ## The invariant -/

/-- What is known of a philosopher whose next part is the point: its state `st` and its place `x` in
the monitor; `q` is the queue of its condition variable. -/
def CondvarStage (i : Fin n) (q : List Nat) (st : PhiState) (x : MonitorPc) : PhiPoint → Prop
  | PhiPoint.loop => st = thinking ∧ x = MonitorPc.outside
  | PhiPoint.take => st = thinking ∧ x = MonitorPc.outside
  | PhiPoint.takeTest => st = thinking ∧ (x = MonitorPc.active ∨ ∃ w, x = MonitorPc.entering w)
  | PhiPoint.takeWait => st ≠ thinking ∧ x = MonitorPc.active
  | PhiPoint.takeLeave => (st = eating ∧ x = MonitorPc.active) ∨
      ∃ w, x = MonitorPc.waiting i w ∧ ((w ∈ q ∧ st = hungry) ∨ (w ∉ q ∧ st = eating))
  | PhiPoint.put => st = eating ∧ x = MonitorPc.outside
  | PhiPoint.putLeft => st = eating ∧ (x = MonitorPc.active ∨ ∃ w, x = MonitorPc.entering w)
  | PhiPoint.putRight => st = thinking ∧ (x = MonitorPc.active ∨ ∃ w, x = MonitorPc.signalling w)
  | PhiPoint.putLeave => st = thinking ∧ (x = MonitorPc.active ∨ ∃ w, x = MonitorPc.signalling w)
  | PhiPoint.quit => st = thinking ∧ x = MonitorPc.outside

/-- The invariant of the condition variable version. -/
structure PhiCondvarInv (mt : Monitor) (seats : Seats n) (s : PhiCondvarSys Q n)
    (queue : Nat → List Nat) : Prop where
  inv : MonitorInv mt s.mon queue
  others : ∀ p, (∀ i, p ≠ seats.proc i) → s.mon.pc p = MonitorPc.outside
  stage : ∀ i, CondvarStage i (queue (mt.cvSem i)) (s.state i) (s.mon.pc (seats.proc i))
    (s.phil i).point
  table : PhiTable s.state (DueAt s.phil)

variable {cls : SchedClass Q} {mt : Monitor} {seats : Seats n} {times : Nat}
  {s t : PhiCondvarSys Q n} {queue queue' : Nat → List Nat} {i j k : Fin n} {w p : Nat}
  {q : List Nat} {st : PhiState} {x : MonitorPc} {point : PhiPoint}

/-- A philosopher waits on no condition variable but its own. -/
theorem CondvarStage.waiting_eq {cv : Nat} (h : CondvarStage i q st x point)
    (hx : x = MonitorPc.waiting cv w) : cv = i := by
  subst hx
  cases point with
  | takeLeave =>
      rcases h with ⟨_, hc⟩ | ⟨u, hu, _⟩
      · cases hc
      · exact (MonitorPc.waiting.inj hu).1
  | takeTest => rcases h.2 with hc | ⟨_, hc⟩ <;> cases hc
  | putLeft => rcases h.2 with hc | ⟨_, hc⟩ <;> cases hc
  | putRight => rcases h.2 with hc | ⟨_, hc⟩ <;> cases hc
  | putLeave => rcases h.2 with hc | ⟨_, hc⟩ <;> cases hc
  | _ => cases h.2

/-- A hungry philosopher is about to wait, or waits. -/
theorem CondvarStage.of_hungry (h : CondvarStage i q hungry x point) :
    x = MonitorPc.active ∨ (point = PhiPoint.takeLeave ∧
      ∃ w, x = MonitorPc.waiting i w ∧ w ∈ q) := by
  cases point with
  | takeWait => exact Or.inl h.2
  | takeLeave =>
      rcases h with ⟨hc, _⟩ | ⟨w, hw, ⟨hmem, _⟩ | ⟨_, hc⟩⟩
      · cases hc
      · exact Or.inr ⟨rfl, w, hw, hmem⟩
      · cases hc
  | _ => cases h.1

theorem PhiCondvarInv.proc_eq (h : PhiCondvarInv mt seats s queue)
    (hp : s.mon.pc p = MonitorPc.waiting k w) : p = seats.proc k := by
  by_cases hphil : ∀ j, p ≠ seats.proc j
  · rw [h.others p hphil] at hp
    cases hp
  · push Not at hphil
    obtain ⟨j, rfl⟩ := hphil
    have hjk : (k : Nat) = j := (h.stage j).waiting_eq hp
    rw [Fin.ext hjk]

/-- While a philosopher is active, a hungry one waits in the queue of its condition variable. -/
theorem PhiCondvarInv.hungry_waits (h : PhiCondvarInv mt seats s queue)
    (hi : s.mon.pc (seats.proc i) = MonitorPc.active) (hk : s.state k = hungry) (hne : k ≠ i) :
    (s.phil k).point = PhiPoint.takeLeave ∧
      ∃ w, s.mon.pc (seats.proc k) = MonitorPc.waiting k w ∧ w ∈ queue (mt.cvSem k) := by
  have hstage := h.stage k
  rw [hk] at hstage
  rcases hstage.of_hungry with hactive | hwait
  · have hproc := ((h.inv.holder (Or.inl hi)).2 (seats.proc k)).1 (Or.inl hactive)
    exact absurd (seats.inj hproc) hne
  · exact hwait

/-! ## The parts keep the invariant -/

/-- A part of `i` that keeps the invariant of the monitor. -/
theorem PhiCondvarInv.moved {st' : MonitorState Q} {state' : Fin n → PhiState} {b : Bool}
    (h : PhiCondvarInv mt seats s queue)
    (hinv : MonitorInv mt ⟨st', Function.update s.mon.pc (seats.proc i)
      (if b then (s.phil i).point.blockedPc i w else (s.phil i).point.donePc)⟩ queue')
    (hself : CondvarStage i (queue' (mt.cvSem i)) (state' i)
      (if b then (s.phil i).point.blockedPc i w else (s.phil i).point.donePc)
      ((s.phil i).nextCondvar times).point)
    (hrest : ∀ j, j ≠ i → CondvarStage j (queue' (mt.cvSem j)) (state' j)
      (s.mon.pc (seats.proc j)) (s.phil j).point)
    (htable : PhiTable state' (DueAt (Function.update s.phil i ((s.phil i).nextCondvar times)))) :
    PhiCondvarInv mt seats (s.after seats times i w (b, ⟨st', state'⟩)) queue' := by
  refine ⟨hinv, fun p hp => ?_, fun j => ?_, htable⟩
  · change Function.update s.mon.pc (seats.proc i) _ p = _
    rw [Function.update_of_ne (hp i)]
    exact h.others p hp
  · change CondvarStage j _ (state' j) (Function.update s.mon.pc (seats.proc i) _ (seats.proc j))
      (Function.update s.phil i ((s.phil i).nextCondvar times) j).point
    by_cases hj : j = i
    · subst hj
      rw [Function.update_self, Function.update_self]
      exact hself
    · rw [Function.update_of_ne fun hc => hj (seats.inj hc), Function.update_of_ne hj]
      exact hrest j hj

/-- `down(&(mtp->mutex))`: the philosopher enters the monitor, or waits. -/
theorem PhiCondvarInv.enter (times : Nat) (h : PhiCondvarInv mt seats s queue)
    (hcur : s.mon.st.sync.machine.current = seats.proc i) (hfresh : UnusedWait mt s.mon w)
    (hpt : (s.phil i).point = PhiPoint.take ∨ (s.phil i).point = PhiPoint.put) :
    ∃ r queue', PhiCondvar.enter mt ⟨s.mon.st, s.state⟩ w = done r ∧
      PhiCondvarInv mt seats (s.after seats times i w r) queue' := by
  have hstage := h.stage i
  have hout : s.mon.pc (seats.proc i) = MonitorPc.outside := by
    rcases hpt with hpt | hpt
    all_goals
      rw [hpt] at hstage
      exact hstage.2
  obtain ⟨blocked, st', queue', hcall, _, hqueue, hinv⟩ := h.inv.enter hcur hout hfresh
  have hpc : (if blocked then (s.phil i).point.blockedPc i w else (s.phil i).point.donePc) =
      (if blocked then MonitorPc.entering w else MonitorPc.active) := by
    rcases hpt with hpt | hpt
    all_goals
      rw [hpt]
      rfl
  refine ⟨(blocked, ⟨st', s.state⟩), queue', ?_, h.moved (by rw [hpc]; exact hinv) ?_
    (fun j _ => ?_) (h.table.mono fun k hk => hk.frame ?_)⟩
  · simp only [PhiCondvar.enter, hcall, bind_done, pure_eq_done]
  · have hplace : (if blocked then MonitorPc.entering w else MonitorPc.active) =
        MonitorPc.active ∨ ∃ u, (if blocked then MonitorPc.entering w else MonitorPc.active) =
          MonitorPc.entering u := by
      cases blocked
      · exact Or.inl rfl
      · exact Or.inr ⟨w, rfl⟩
    rw [hpc]
    rcases hpt with hpt | hpt
    all_goals
      rw [hpt] at hstage
      simp only [Philosopher.nextCondvar, hpt]
      exact ⟨hstage.1, hplace⟩
  · rw [hqueue]
    exact h.stage j
  · rcases hpt with hpt | hpt
    all_goals simp [hpt]

/-- The code behind a routine: the philosopher leaves the monitor. -/
theorem PhiCondvarInv.leave (cls : SchedClass Q) (times w : Nat)
    (h : PhiCondvarInv mt seats s queue)
    (hactive : s.mon.pc (seats.proc i) = MonitorPc.active)
    (hdone : (s.phil i).point.donePc = MonitorPc.outside)
    (hright : (s.phil i).point ≠ PhiPoint.putRight)
    (hself : CondvarStage i (queue (mt.cvSem i)) (s.state i) MonitorPc.outside
      ((s.phil i).nextCondvar times).point) :
    ∃ r queue', PhiCondvar.leave cls mt ⟨s.mon.st, s.state⟩ = done r ∧
      PhiCondvarInv mt seats (s.after seats times i w r) queue' := by
  obtain ⟨st', queue', hcall, _, hqueue, hinv⟩ := h.inv.leave cls hactive
  refine ⟨(false, ⟨st', s.state⟩), queue', ?_, h.moved ?_ ?_ (fun j _ => ?_)
    (h.table.mono fun k hk => hk.frame hright)⟩
  · simp only [PhiCondvar.leave, hcall, bind_done, pure_eq_done]
  · simpa only [Bool.false_eq_true, if_false, hdone] using hinv
  · simpa only [Bool.false_eq_true, if_false, hdone, hqueue] using hself
  · rw [hqueue]
    exact h.stage j

/-- A part that calls no function of the monitor. -/
theorem PhiCondvarInv.stay (times w : Nat) {state' : Fin n → PhiState}
    (h : PhiCondvarInv mt seats s queue)
    (hdone : (s.phil i).point.donePc = s.mon.pc (seats.proc i))
    (hself : CondvarStage i (queue (mt.cvSem i)) (state' i) (s.mon.pc (seats.proc i))
      ((s.phil i).nextCondvar times).point)
    (hstate : ∀ j, j ≠ i → state' j = s.state j)
    (htable : PhiTable state' (DueAt (Function.update s.phil i ((s.phil i).nextCondvar times)))) :
    PhiCondvarInv mt seats (s.after seats times i w (false, ⟨s.mon.st, state'⟩)) queue := by
  refine h.moved ?_ ?_ (fun j hj => ?_) htable
  · simp only [Bool.false_eq_true, if_false, hdone, Function.update_eq_self]
    exact h.inv
  · simpa only [Bool.false_eq_true, if_false, hdone] using hself
  · rw [hstate j hj]
    exact h.stage j

/-- `cond_wait`: the philosopher gives the monitor away and waits. -/
theorem PhiCondvarInv.await (cls : SchedClass Q) (times : Nat) (h : PhiCondvarInv mt seats s queue)
    (hcur : s.mon.st.sync.machine.current = seats.proc i) (hfresh : UnusedWait mt s.mon w)
    (hpt : (s.phil i).point = PhiPoint.takeWait) :
    ∃ r queue', phiCondvarPart cls mt ⟨s.mon.st, s.state⟩ i w PhiPoint.takeWait = done r ∧
      PhiCondvarInv mt seats (s.after seats times i w r) queue' := by
  have hstage := h.stage i
  rw [hpt] at hstage
  have htable : PhiTable s.state
      (DueAt (Function.update s.phil i ((s.phil i).nextCondvar times))) :=
    h.table.mono fun k hk => hk.frame (by simp [hpt])
  by_cases hhungry : s.state i = hungry
  · obtain ⟨st', queue', hcall, _, _, hqueue, hinv⟩ := h.inv.wait cls hcur hstage.2 hfresh i
    refine ⟨(true, ⟨st', s.state⟩), queue', ?_, h.moved ?_ ?_ (fun j hj => ?_) htable⟩
    · simp only [phiCondvarPart, if_pos hhungry, hcall, bind_done, pure_eq_done]
    · simpa only [if_true, hpt, PhiPoint.blockedPc] using hinv
    · simp only [if_true, hpt, PhiPoint.blockedPc, Philosopher.nextCondvar]
      refine Or.inr ⟨w, rfl, Or.inl ⟨?_, hhungry⟩⟩
      rw [hqueue, if_pos rfl]
      simp
    · rw [hqueue, if_neg fun hc => hj (Fin.ext hc)]
      exact h.stage j
  · -- The test has set the state to `EATING`.
    have heats : s.state i = eating := by
      cases hst : s.state i with
      | thinking => exact absurd hst hstage.1
      | hungry => exact absurd hst hhungry
      | eating => rfl
    refine ⟨(false, ⟨s.mon.st, s.state⟩), queue, ?_, h.stay times w ?_ ?_ (fun _ _ => rfl) htable⟩
    · simp only [phiCondvarPart, if_neg hhungry, pure_eq_done]
    · rw [hpt, hstage.2]
      rfl
    · rw [hstage.2]
      simp only [Philosopher.nextCondvar, hpt]
      exact Or.inl ⟨heats, rfl⟩

/-- The test of a neighbour: if it is hungry and may eat now, it is handed the monitor. -/
theorem PhiCondvarInv.testOther (cls : SchedClass Q) (times : Nat)
    (h : PhiCondvarInv mt seats s queue)
    (hcur : s.mon.st.sync.machine.current = seats.proc i) (hfresh : UnusedWait mt s.mon w)
    (hactive : s.mon.pc (seats.proc i) = MonitorPc.active) (state' : Fin n → PhiState)
    (hstate : ∀ j, j ≠ i → state' j = s.state j) (hne : k ≠ i)
    (hblocked : (s.phil i).point.blockedPc i w = MonitorPc.signalling w)
    (hdone : (s.phil i).point.donePc = MonitorPc.active)
    (hself : ∀ x, (x = MonitorPc.active ∨ ∃ u, x = MonitorPc.signalling u) → ∀ q,
      CondvarStage i q (state' i) x ((s.phil i).nextCondvar times).point)
    (htable : PhiTable (testState state' k)
      (DueAt (Function.update s.phil i ((s.phil i).nextCondvar times)))) :
    ∃ r queue', phiTestCondvar cls mt ⟨s.mon.st, state'⟩ k w = done r ∧
      PhiCondvarInv mt seats (s.after seats times i w r) queue' := by
  by_cases hmay : MayEat state' k
  · have hk : s.state k = hungry := by
      rw [← hstate k hne]
      exact hmay.1
    obtain ⟨hpt, u, hu, hmem⟩ := h.hungry_waits hactive hk hne
    have hcount : s.mon.st.count k > 0 := (h.inv.waiters k).pos_of_exists ⟨u, hu⟩
    obtain ⟨st', queue', v, ws, hcall, hcons, _, _, hqueue, hinv, _⟩ :=
      h.inv.signal cls hcur hactive hfresh hcount
    -- The first wait in the queue is that of `k`, and it is there once.
    have hvu : v = u := by
      have hpc := eq_waiting_of_inDown (h.inv.waiting.queued (mt.cvSem k) v (by simp [hcons]))
      rw [h.proc_eq hpc, hu] at hpc
      exact (MonitorPc.waiting.inj hpc).2.symm
    have hgone : u ∉ ws := by
      have hnd := (List.nodup_cons.1 (h.inv.waiting.ring (mt.cvSem k)).nodup).2.of_map
      rw [hcons, hvu] at hnd
      exact (List.nodup_cons.1 hnd).1
    refine ⟨(true, ⟨st', testState state' k⟩), queue', ?_, h.moved ?_ ?_ (fun j hj => ?_) htable⟩
    · simp only [phiTestCondvar, if_pos hmay, hcall, bind_done, pure_eq_done,
        testState_of_mayEat hmay]
    · simpa only [if_true, hblocked] using hinv
    · rw [testState_of_ne hne.symm]
      simp only [if_true, hblocked]
      exact hself _ (Or.inr ⟨w, rfl⟩) _
    · rw [hqueue]
      by_cases hjk : j = k
      · subst hjk
        rw [if_pos rfl, testState_of_mayEat hmay, Function.update_self, hpt]
        exact Or.inr ⟨u, hu, Or.inr ⟨hgone, rfl⟩⟩
      · rw [if_neg fun hc => hjk (Fin.ext hc), testState_of_ne hjk, hstate j hj]
        exact h.stage j
  · rw [testState_of_not hmay] at htable
    refine ⟨(false, ⟨s.mon.st, state'⟩), queue, ?_, h.stay times w ?_ ?_ hstate htable⟩
    · simp only [phiTestCondvar, if_neg hmay, pure_eq_done]
    · rw [hdone, hactive]
    · exact hself _ (Or.inl hactive) _

/-- The test of the philosopher itself wakes nobody: nobody else waits on its condition variable. -/
theorem PhiCondvarInv.testSelf (cls : SchedClass Q) (h : PhiCondvarInv mt seats s queue)
    (hactive : s.mon.pc (seats.proc i) = MonitorPc.active) (state' : Fin n → PhiState) :
    phiTestCondvar cls mt ⟨s.mon.st, state'⟩ i w =
      done (false, ⟨s.mon.st, testState state' i⟩) := by
  by_cases hmay : MayEat state' i
  · have hcount : ¬ s.mon.st.count i > 0 := by
      intro hpos
      obtain ⟨p, u, hu⟩ := (h.inv.waiters i).exists_of_pos hpos
      rw [h.proc_eq hu, hactive] at hu
      cases hu
    simp only [phiTestCondvar, if_pos hmay, condSignal_of_not_pos hcount, bind_done, pure_eq_done,
      testState_of_mayEat hmay]
  · simp only [phiTestCondvar, if_neg hmay, pure_eq_done, testState_of_not hmay]

/-- A part runs to its end, or to its call of `schedule`, and keeps the invariant. -/
theorem PhiCondvarInv.act (cls : SchedClass Q) (times : Nat) (hn : 2 ≤ n)
    (h : PhiCondvarInv mt seats s queue)
    (hcur : s.mon.st.sync.machine.current = seats.proc i)
    (hd : s.mon.inDown mt (seats.proc i) = none) (hfresh : UnusedWait mt s.mon w)
    (hquit : (s.phil i).point ≠ PhiPoint.quit) :
    ∃ r queue', phiCondvarPart cls mt ⟨s.mon.st, s.state⟩ i w (s.phil i).point = done r ∧
      PhiCondvarInv mt seats (s.after seats times i w r) queue' := by
  have hstage := h.stage i
  have hawake : ∀ x, s.mon.pc (seats.proc i) = x → x.inDown mt = none := by
    rintro x rfl
    exact hd
  cases hpt : (s.phil i).point with
  | loop =>
      rw [hpt] at hstage
      refine ⟨_, queue, rfl, h.stay times w ?_ ?_ (fun _ _ => rfl)
        (h.table.mono fun k hk => hk.frame (by simp [hpt]))⟩
      · rw [hpt, hstage.2]
        rfl
      · simp only [Philosopher.nextCondvar, hpt]
        split
        · exact hstage
        · exact hstage
  | take => exact h.enter times hcur hfresh (Or.inl hpt)
  | takeTest =>
      rw [hpt] at hstage
      have hactive : s.mon.pc (seats.proc i) = MonitorPc.active := by
        rcases hstage.2 with hx | ⟨u, hx⟩
        · exact hx
        · cases hawake _ hx
      have hnot : s.state i ≠ eating := by simp [hstage.1]
      refine ⟨_, queue, h.testSelf cls hactive _, h.stay times w ?_ ?_ (fun j hj => ?_)
        ((h.table.request hnot).test hn fun k hk => hk.imp_right fun hdue =>
          hdue.frame (by simp [hpt]))⟩
      · rw [hpt, hactive]
        rfl
      · simp only [Philosopher.nextCondvar, hpt]
        refine ⟨?_, hactive⟩
        unfold testState
        split
        · rw [Function.update_self]
          decide
        · rw [Function.update_self]
          decide
      · rw [testState_of_ne hj, Function.update_of_ne hj]
  | takeWait => exact h.await cls times hcur hfresh hpt
  | takeLeave =>
      rw [hpt] at hstage
      rcases hstage with ⟨heats, hactive⟩ | ⟨u, hx, _⟩
      · exact h.leave cls times w hactive (by rw [hpt]; rfl) (by simp [hpt]) (by
          simp only [Philosopher.nextCondvar, hpt]
          exact ⟨heats, rfl⟩)
      · cases hawake _ hx
  | put => exact h.enter times hcur hfresh (Or.inr hpt)
  | putLeft =>
      rw [hpt] at hstage
      have hactive : s.mon.pc (seats.proc i) = MonitorPc.active := by
        rcases hstage.2 with hx | ⟨u, hx⟩
        · exact hx
        · cases hawake _ hx
      refine h.testOther cls times hcur hfresh hactive (Function.update s.state i thinking)
        (fun j hj => Function.update_of_ne hj _ _) (leftOf_ne hn i) (by rw [hpt]; rfl)
        (by rw [hpt]; rfl) (fun x hx q => ?_) ((h.table.release i).test hn ?_)
      · simp only [Philosopher.nextCondvar, hpt]
        exact ⟨Function.update_self .., hx⟩
      · rintro k (hk | rfl | hdue)
        · exact Or.inl hk
        · -- The right neighbour is tested next.
          refine Or.inr ⟨i, ?_, rfl⟩
          rw [Function.update_self]
          simp [Philosopher.nextCondvar, hpt]
        · exact Or.inr (hdue.frame (by simp [hpt]))
  | putRight =>
      rw [hpt] at hstage
      have hactive : s.mon.pc (seats.proc i) = MonitorPc.active := by
        rcases hstage.2 with hx | ⟨u, hx⟩
        · exact hx
        · cases hawake _ hx
      refine h.testOther cls times hcur hfresh hactive s.state (fun j _ => rfl)
        (rightOf_ne hn i) (by rw [hpt]; rfl) (by rw [hpt]; rfl) (fun x hx q => ?_)
        (h.table.test hn fun k hk => hk.tested)
      simp only [Philosopher.nextCondvar, hpt]
      exact ⟨hstage.1, hx⟩
  | putLeave =>
      rw [hpt] at hstage
      have hactive : s.mon.pc (seats.proc i) = MonitorPc.active := by
        rcases hstage.2 with hx | ⟨u, hx⟩
        · exact hx
        · cases hawake _ hx
      exact h.leave cls times w hactive (by rw [hpt]; rfl) (by simp [hpt]) (by
        simp only [Philosopher.nextCondvar, hpt]
        exact ⟨hstage.1, rfl⟩)
  | quit => exact absurd hpt hquit

/-- A philosopher that was woken in `down` is active. -/
theorem PhiCondvarInv.resume {cv : Option Nat} (h : PhiCondvarInv mt seats s queue)
    (hstep : MonitorStep cls mt s.mon (MonitorOp.resume (seats.proc i) cv) t.mon)
    (hstate : t.state = s.state) (hphil : t.phil = s.phil) :
    PhiCondvarInv mt seats t queue := by
  obtain ⟨hrun, hcall, -, hpc⟩ := hstep
  have hstage := h.stage i
  have hin : s.mon.inDown mt (seats.proc i) ≠ none := by
    intro hc
    cases hx : s.mon.pc (seats.proc i) with
    | outside => rw [hx] at hcall; cases hcall
    | active => rw [hx] at hcall; cases hcall
    | _ => simp [MonitorSys.inDown, hx, MonitorPc.inDown] at hc
  obtain ⟨st', hcall', hsync, hholds, hinv⟩ := h.inv.resume hrun hin
  rw [hcall] at hcall'
  cases hcall'
  rw [← hpc] at hinv
  refine ⟨hinv, fun p hp => ?_, fun j => ?_, ?_⟩
  · rw [hpc, Function.update_of_ne (hp i)]
    exact h.others p hp
  · rw [hstate, hphil, hpc]
    by_cases hj : j = i
    · subst hj
      rw [Function.update_self]
      cases hpt : (s.phil j).point with
      | takeTest => rw [hpt] at hstage; exact ⟨hstage.1, Or.inl rfl⟩
      | putLeft => rw [hpt] at hstage; exact ⟨hstage.1, Or.inl rfl⟩
      | putRight => rw [hpt] at hstage; exact ⟨hstage.1, Or.inl rfl⟩
      | putLeave => rw [hpt] at hstage; exact ⟨hstage.1, Or.inl rfl⟩
      | takeWait => rw [hpt] at hstage; exact ⟨hstage.1, rfl⟩
      | takeLeave =>
          rw [hpt] at hstage
          rcases hstage with ⟨heats, _⟩ | ⟨u, hu, ⟨hmem, _⟩ | ⟨_, heats⟩⟩
          · exact Or.inl ⟨heats, rfl⟩
          · -- It runs, so it is not in the queue any more.
            have hwait : s.mon.inDown mt (seats.proc j) = some (mt.cvSem j, u) := by
              rw [MonitorSys.inDown, hu]
              rfl
            have hsleep := (h.inv.waiting.asleep _ _ _ hwait hmem).1
            rw [hrun.2] at hsleep
            cases hsleep
          · exact Or.inl ⟨heats, rfl⟩
      | loop => rw [hpt] at hstage; exact absurd (by rw [MonitorSys.inDown, hstage.2]; rfl) hin
      | take => rw [hpt] at hstage; exact absurd (by rw [MonitorSys.inDown, hstage.2]; rfl) hin
      | put => rw [hpt] at hstage; exact absurd (by rw [MonitorSys.inDown, hstage.2]; rfl) hin
      | quit => rw [hpt] at hstage; exact absurd (by rw [MonitorSys.inDown, hstage.2]; rfl) hin
    · rw [Function.update_of_ne fun hc => hj (seats.inj hc)]
      exact h.stage j
  · rw [hstate, hphil]
    exact h.table

/-- An action of the rest of the machine. -/
theorem PhiCondvarInv.rest {m : Machine Q} (h : PhiCondvarInv mt seats s queue)
    (hpc : t.mon.pc = s.mon.pc)
    (hst : t.mon.st = { s.mon.st with sync := { s.mon.st.sync with machine := m } })
    (hproc : ∀ p, s.mon.inDown mt p ≠ none →
      (m.proc p).state = (s.mon.st.sync.machine.proc p).state ∧
        (m.proc p).waitState = (s.mon.st.sync.machine.proc p).waitState)
    (hstate : t.state = s.state) (hphil : t.phil = s.phil) :
    PhiCondvarInv mt seats t queue := by
  have hinv := h.inv.machine hproc
  rw [← hst, ← hpc] at hinv
  refine ⟨hinv, ?_, ?_, ?_⟩
  · rw [hpc]
    exact h.others
  · rw [hpc, hstate, hphil]
    exact h.stage
  · rw [hstate, hphil]
    exact h.table

theorem PhiCondvarInv.step {op : PhiOp n} (hn : 2 ≤ n) (h : PhiCondvarInv mt seats s queue)
    (hstep : PhiCondvarStep cls mt seats times s op t) :
    ∃ queue', PhiCondvarInv mt seats t queue' := by
  cases op with
  | act i =>
      obtain ⟨⟨hcur, _⟩, hd, hquit, w, r, hfresh, hpart, rfl⟩ := hstep
      obtain ⟨r', queue', hpart', hinv⟩ := h.act cls times hn hcur hd hfresh hquit
      rw [hpart] at hpart'
      cases hpart'
      exact ⟨queue', hinv⟩
  | resume i =>
      obtain ⟨⟨cv, hres⟩, hstate, hphil⟩ := hstep
      exact ⟨queue, h.resume hres hstate hphil⟩
  | switch p =>
      obtain ⟨⟨_, hpc, m, hst, _, hproc⟩, hstate, hphil⟩ := hstep
      exact ⟨queue, h.rest hpc hst (fun q _ => hproc q) hstate hphil⟩
  | kill p =>
      obtain ⟨⟨hpc, r, m, hkill, hst⟩, hstate, hphil⟩ := hstep
      exact ⟨queue, h.rest hpc hst (h.inv.waiting.killProc_frame hkill) hstate hphil⟩
  | other =>
      obtain ⟨⟨hpc, m, hst, hproc⟩, hstate, hphil⟩ := hstep
      exact ⟨queue, h.rest hpc hst hproc hstate hphil⟩

/-! ## Safety and progress -/

/-- `i` sleeps in the middle of `down`. -/
def PhiCondvarSys.Blocked (s : PhiCondvarSys Q n) (mt : Monitor) (seats : Seats n) (i : Fin n) :
    Prop :=
  s.mon.inDown mt (seats.proc i) ≠ none ∧
    (s.mon.st.sync.machine.proc (seats.proc i)).state = ProcState.sleeping

/-- A blocked philosopher is in the queue of the semaphore that it waits for. -/
theorem PhiCondvarInv.queued (h : PhiCondvarInv mt seats s queue) (hi : s.Blocked mt seats i) :
    ∃ sem w, s.mon.inDown mt (seats.proc i) = some (sem, w) ∧ w ∈ queue sem := by
  obtain ⟨⟨sem, w⟩, hw⟩ := Option.ne_none_iff_exists'.1 hi.1
  refine ⟨sem, w, hw, ?_⟩
  by_contra hnot
  have hrun := (h.inv.waiting.handed _ sem w hw hnot).1
  rw [hi.2] at hrun
  cases hrun

/-- While somebody has not finished, somebody that has not finished is not blocked. -/
theorem PhiCondvarInv.progress (h : PhiCondvarInv mt seats s queue)
    (hlive : (s.phil i).point ≠ PhiPoint.quit) :
    ∃ j, (s.phil j).point ≠ PhiPoint.quit ∧ ¬ s.Blocked mt seats j := by
  by_contra hall
  push Not at hall
  have hquit : ∀ j, (s.phil j).point = PhiPoint.quit →
      s.mon.pc (seats.proc j) = MonitorPc.outside := by
    intro j hj
    have hstage := h.stage j
    rw [hj] at hstage
    exact hstage.2
  -- Everybody that has not finished is in a queue, so nobody holds the monitor.
  have hout : ∀ p, ¬ Holds mt s.mon.pc queue p := by
    intro p hp
    have hplace : s.mon.pc p ≠ MonitorPc.outside := by
      rintro hc
      rcases hp with hp | ⟨sem, w, hw, _⟩
      · rw [hc] at hp
        cases hp
      · have hdown : (s.mon.pc p).inDown mt = some (sem, w) := hw
        rw [hc] at hdown
        cases hdown
    obtain ⟨j, rfl⟩ : ∃ j, p = seats.proc j := by
      by_contra hnone
      push Not at hnone
      exact hplace (h.others p hnone)
    obtain ⟨sem, w, hw, hmem⟩ := h.queued (hall j fun hc => hplace (hquit j hc))
    rcases hp with hp | ⟨sem', w', hw', hnot⟩
    · rw [MonitorSys.inDown, hp] at hw
      cases hw
    · have hw'' : s.mon.inDown mt (seats.proc j) = some (sem', w') := hw'
      rw [hw] at hw''
      cases hw''
      exact hnot hmem
  obtain ⟨hzero, hnil⟩ : s.mon.st.nextCount = 0 ∧ queue mt.mutex = [] := by
    rcases h.inv.token with ⟨_, hzero, hnil, _⟩ | ⟨_, r, hr⟩
    · exact ⟨hzero, hnil⟩
    · exact absurd ((hr r).2 rfl) (hout r)
  have hnext : ∀ p w, s.mon.pc p ≠ MonitorPc.signalling w := by
    intro p w hp
    have := h.inv.signallers.pos_of_exists ⟨w, hp⟩
    omega
  have hdue : ∀ k, ¬ DueAt s.phil k := by
    rintro k ⟨j, hj, _⟩
    have hstage := h.stage j
    rw [hj] at hstage
    rcases hstage.2 with hx | ⟨w, hx⟩
    · exact hout _ (Or.inl hx)
    · exact hnext _ w hx
  -- So everybody that has not finished waits on its condition variable, and is hungry.
  have hhungry : ∀ j, (s.phil j).point ≠ PhiPoint.quit → s.state j = hungry := by
    intro j hj
    obtain ⟨sem, w, hw, hmem⟩ := h.queued (hall j hj)
    have hstage := h.stage j
    rw [MonitorSys.inDown] at hw
    cases hx : s.mon.pc (seats.proc j) with
    | outside => rw [hx] at hw; cases hw
    | active => exact absurd (Or.inl hx) (hout (seats.proc j))
    | signalling u => exact absurd hx (hnext _ u)
    | entering u =>
        rw [hx] at hw
        cases hw
        rw [hnil] at hmem
        cases hmem
    | waiting cv u =>
        rw [hx] at hw hstage
        cases hw
        have hcv := hstage.waiting_eq rfl
        subst hcv
        cases hpt : (s.phil j).point with
        | takeLeave =>
            rw [hpt] at hstage
            rcases hstage with ⟨_, hc⟩ | ⟨v, hv, ⟨_, hst⟩ | ⟨hnot, _⟩⟩
            · cases hc
            · exact hst
            · cases hv
              exact absurd hmem hnot
        | takeTest => rw [hpt] at hstage; rcases hstage.2 with hc | ⟨_, hc⟩ <;> cases hc
        | putLeft => rw [hpt] at hstage; rcases hstage.2 with hc | ⟨_, hc⟩ <;> cases hc
        | putRight => rw [hpt] at hstage; rcases hstage.2 with hc | ⟨_, hc⟩ <;> cases hc
        | putLeave => rw [hpt] at hstage; rcases hstage.2 with hc | ⟨_, hc⟩ <;> cases hc
        | _ => rw [hpt] at hstage; cases hstage.2
  -- But then a neighbour eats, and it has not finished.
  have heats : ∀ j, s.state j ≠ eating := by
    intro j hj
    have hstage := h.stage j
    have hpt : (s.phil j).point ≠ PhiPoint.quit := by
      intro hc
      rw [hc, hj] at hstage
      cases hstage.1
    rw [hhungry j hpt] at hj
    cases hj
  rcases h.table.served i (hhungry i hlive) with hd | hl | hr
  · exact hdue i hd
  · exact heats _ hl
  · exact heats _ hr

theorem PhiCondvarInv.dines (h : PhiCondvarInv mt seats s queue) :
    Dines s.state s.phil (s.Blocked mt seats) := by
  refine ⟨h.table.exclusive, fun i hi => ?_, fun ⟨i, hi⟩ => h.progress hi⟩
  have hstage := h.stage i
  rw [hi] at hstage
  exact hstage.1

/-- The state after `monitor_init` and the calls of `kernel_thread` in `check_sync`. -/
structure PhiCondvarStart (mt : Monitor) (s : PhiCondvarSys Q n) : Prop where
  free : MonitorFree mt s.mon
  state : ∀ i, s.state i = thinking
  phil : ∀ i, s.phil i = ⟨PhiPoint.loop, 0⟩

theorem PhiCondvarStart.inv (h : PhiCondvarStart mt s) (seats : Seats n) :
    PhiCondvarInv mt seats s fun _ => [] := by
  refine ⟨h.free.history.inv, fun p _ => h.free.outside p, fun i => ?_, ⟨?_, ?_⟩⟩
  · rw [h.phil i]
    exact ⟨h.state i, h.free.outside _⟩
  · intro i hi
    rw [h.state i] at hi
    cases hi
  · intro i hi
    rw [h.state i] at hi
    cases hi

/-- Every state of a run satisfies the invariant. -/
theorem PhiCondvarInv.run {ops : List (PhiOp n)} (hn : 2 ≤ n) (hstart : PhiCondvarStart mt s)
    (hrun : Run (PhiCondvarStep cls mt seats times) s ops t) :
    ∃ queue, PhiCondvarInv mt seats t queue :=
  hrun.invariant (fun t => ∃ queue, PhiCondvarInv mt seats t queue)
    (fun _ _ _ ⟨_, h⟩ hstep => h.step hn hstep) ⟨_, hstart.inv seats⟩

/-- Any number of philosophers, but for one alone, and any number of iterations: in every state that
a run of one of the two solutions reaches, no two neighbours eat, a philosopher eats from the return
of `phi_take_forks` to its call of `phi_put_forks`, and not everybody is blocked. No `s[i]` has more
than one unit. -/
theorem dining_philosophers (cls : SchedClass Q) {n : Nat} (hn : 2 ≤ n) (times : Nat)
    (seats : Seats n) :
    (∀ (ps : PhiSems n) (s t : PhiSemaSys Q n) (ops : List (PhiOp n)), PhiSemaStart ps s →
      Run (PhiSemaStep cls ps seats times) s ops t →
        Dines t.state t.phil (t.Blocked seats) ∧ ∀ i, t.sem.sync.value (ps.s i) ≤ 1) ∧
    ∀ (mt : Monitor) (s t : PhiCondvarSys Q n) (ops : List (PhiOp n)), PhiCondvarStart mt s →
      Run (PhiCondvarStep cls mt seats times) s ops t →
        Dines t.state t.phil (t.Blocked mt seats) := by
  refine ⟨fun ps s t ops hstart hrun => ?_, fun mt s t ops hstart hrun => ?_⟩
  · obtain ⟨queue, h⟩ := PhiSemaInv.run hn hstart hrun
    exact ⟨h.dines, h.value_le_one⟩
  · obtain ⟨queue, h⟩ := PhiCondvarInv.run hn hstart hrun
    exact h.dines

/-- Two philosophers, the processes 1 and 2. -/
def twoSeats : Seats 2 where
  proc := fun i => i + 1
  inj := fun i j h => Fin.ext (by simpa using h)

/-- `mutex` at 0, and `s[i]` behind it. -/
def twoSems : PhiSems 2 where
  mutex := 0
  s := fun i => i + 1
  s_ne := fun i => by simp
  s_inj := fun i j h => Fin.ext (by simpa using h)

/-- The first philosopher runs, and both think. -/
def semaTable : PhiSemaSys RunQueue 2 where
  sem := { semStart 0 with
    sync := { (semStart 0).sync with value := Function.update (fun _ => 0) 0 1 } }
  state := fun _ => thinking
  phil := fun _ => ⟨PhiPoint.loop, 0⟩

/-- The first philosopher goes on to `phi_take_forks_sema`. -/
def semaTaking : PhiSemaSys RunQueue 2 :=
  semaTable.after twoSems twoSeats 4 0 7 (false, ⟨semaTable.sem.sync, semaTable.state⟩)

def condvarTable : PhiCondvarSys RunQueue 2 where
  mon := monitorStart
  state := fun _ => thinking
  phil := fun _ => ⟨PhiPoint.loop, 0⟩

/-- The first philosopher goes on to `phi_take_forks_condvar`. -/
def condvarTaking : PhiCondvarSys RunQueue 2 :=
  condvarTable.after twoSeats 4 0 7 (false, ⟨condvarTable.mon.st, condvarTable.state⟩)

/-- Two philosophers that eat four times, after the first step. -/
theorem dining_philosophers_two :
    (Dines semaTaking.state semaTaking.phil (semaTaking.Blocked twoSeats) ∧
      ∀ i, semaTaking.sem.sync.value (twoSems.s i) ≤ 1) ∧
    Dines condvarTaking.state condvarTaking.phil (condvarTaking.Blocked plainMonitor twoSeats) := by
  have hsema : PhiSemaStart twoSems semaTable :=
    ⟨rfl, fun i => Function.update_of_ne (twoSems.s_ne i) 1 (fun _ => (0 : Int)), fun _ => ⟨by simp, rfl, rfl⟩,
      fun _ => rfl, fun _ => rfl, fun _ => rfl⟩
  have hcondvar : PhiCondvarStart plainMonitor condvarTable :=
    ⟨monitorFree_start, fun _ => rfl, fun _ => rfl⟩
  have hsemaStep : PhiSemaStep defaultSchedClass twoSems twoSeats 4 semaTable (PhiOp.act 0)
      semaTaking :=
    ⟨⟨rfl, rfl⟩, rfl, (by decide), 7, _, (fun _ _ h => nomatch h), rfl, rfl⟩
  have hcondvarStep : PhiCondvarStep defaultSchedClass plainMonitor twoSeats 4 condvarTable
      (PhiOp.act 0) condvarTaking :=
    ⟨⟨rfl, rfl⟩, rfl, (by decide), 7, _, (fun _ _ h => nomatch h), rfl, rfl⟩
  have h := dining_philosophers defaultSchedClass (le_refl 2) 4 twoSeats
  exact ⟨h.1 twoSems semaTable semaTaking _ hsema (Run.cons hsemaStep Run.nil),
    h.2 plainMonitor condvarTable condvarTaking _ hcondvar (Run.cons hcondvarStep Run.nil)⟩

end TriOS
