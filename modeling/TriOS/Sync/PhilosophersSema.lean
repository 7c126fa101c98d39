import TriOS.Sync.Philosophers
import TriOS.Sync.SemRuns

/-!
# check_sync.c — the philosophers with semaphores

One action is a call on a semaphore, with the accesses to `state_sema` in front of it, so the
processor can go from one process to another between any two calls. The kernel switches less often.
-/

namespace TriOS

open CircularList Outcome Transition PhiState

/-- The semaphores `mutex` and `s`. They are different variables. -/
structure PhiSems (n : Nat) where
  mutex : Nat
  s : Fin n → Nat
  s_ne : ∀ i, s i ≠ mutex
  s_inj : Function.Injective s

/-- The semaphores and `state_sema`. -/
structure PhiSema (Q : Type) (n : Nat) where
  sync : Sync Q
  state : Fin n → PhiState

variable {Q : Type} {n : Nat}

/-- `phi_test_sema` -/
def phiTestSema (cls : SchedClass Q) (ps : PhiSems n) (v : PhiSema Q n) (i : Fin n) :
    Outcome (PhiSema Q n) :=
  if MayEat v.state i then do
    let state := Function.update v.state i eating
    let sync ← up cls v.sync (ps.s i)
    pure { sync := sync, state := state }
  else pure v

/-- `down`, up to the call of `schedule`. -/
def PhiSema.down (v : PhiSema Q n) (sem w : Nat) : Outcome (Bool × PhiSema Q n) := do
  let (blocked, sync) ← TriOS.down v.sync sem w
  pure (blocked, { v with sync := sync })

def PhiSema.up (cls : SchedClass Q) (v : PhiSema Q n) (sem : Nat) :
    Outcome (Bool × PhiSema Q n) := do
  let sync ← TriOS.up cls v.sync sem
  pure (false, { v with sync := sync })

/-- `phi_take_forks_sema` and `phi_put_forks_sema` in parts. The result says whether the process has
to wait in `down`. -/
def phiSemaPart (cls : SchedClass Q) (ps : PhiSems n) (v : PhiSema Q n) (i : Fin n) (w : Nat) :
    PhiPoint → Outcome (Bool × PhiSema Q n)
  | PhiPoint.loop => pure (false, v)
  | PhiPoint.take => v.down ps.mutex w
  | PhiPoint.takeTest => do
      let v ← phiTestSema cls ps { v with state := Function.update v.state i hungry } i
      pure (false, v)
  | PhiPoint.takeLeave => v.up cls ps.mutex
  | PhiPoint.takeWait => v.down (ps.s i) w
  | PhiPoint.put => v.down ps.mutex w
  | PhiPoint.putLeft => do
      let v := { v with state := Function.update v.state i thinking }
      let v ← phiTestSema cls ps v (leftOf i)
      pure (false, v)
  | PhiPoint.putRight => do
      let v ← phiTestSema cls ps v (rightOf i)
      pure (false, v)
  | PhiPoint.putLeave => v.up cls ps.mutex
  | PhiPoint.quit => pure (false, v)

/-- The part that comes next. -/
def Philosopher.nextSema (times : Nat) (x : Philosopher) : Philosopher :=
  match x.point with
  | PhiPoint.loop =>
      { point := if x.iter < times then PhiPoint.take else PhiPoint.quit, iter := x.iter + 1 }
  | PhiPoint.take => { x with point := PhiPoint.takeTest }
  | PhiPoint.takeTest => { x with point := PhiPoint.takeLeave }
  | PhiPoint.takeLeave => { x with point := PhiPoint.takeWait }
  | PhiPoint.takeWait => { x with point := PhiPoint.put }
  | PhiPoint.put => { x with point := PhiPoint.putLeft }
  | PhiPoint.putLeft => { x with point := PhiPoint.putRight }
  | PhiPoint.putRight => { x with point := PhiPoint.putLeave }
  | PhiPoint.putLeave => { x with point := PhiPoint.loop }
  | PhiPoint.quit => x

/-- The semaphore of the `down` at a point. -/
def PhiSems.downAt (ps : PhiSems n) (i : Fin n) : PhiPoint → Nat
  | PhiPoint.takeWait => ps.s i
  | _ => ps.mutex

/-- The semaphores with the processes inside `down`, `state_sema`, and the philosophers. -/
structure PhiSemaSys (Q : Type) (n : Nat) where
  sem : SemSys Q
  state : Fin n → PhiState
  phil : Fin n → Philosopher

/-- The system after a part of `i` has run: `i` goes to its next part, or it is in the middle of
`down` with the wait `w`. -/
def PhiSemaSys.after (ps : PhiSems n) (seats : Seats n) (times : Nat) (s : PhiSemaSys Q n)
    (i : Fin n) (w : Nat) (r : Bool × PhiSema Q n) : PhiSemaSys Q n :=
  if r.1 then
    { s with
      sem :=
        { sync := r.2.sync
          inDown := Function.update s.sem.inDown (seats.proc i)
            (some (ps.downAt i (s.phil i).point, w)) }
      state := r.2.state }
  else
    { sem := { s.sem with sync := r.2.sync }
      state := r.2.state
      phil := Function.update s.phil i ((s.phil i).nextSema times) }

/-- One action. -/
def PhiSemaStep (cls : SchedClass Q) (ps : PhiSems n) (seats : Seats n) (times : Nat)
    (s : PhiSemaSys Q n) (op : PhiOp n) (t : PhiSemaSys Q n) : Prop :=
  match op with
  | PhiOp.act i =>
      Ready s.sem ∧ s.sem.sync.machine.current = seats.proc i ∧
        (s.phil i).point ≠ PhiPoint.quit ∧ ∃ w r, FreshWait s.sem w ∧
          phiSemaPart cls ps ⟨s.sem.sync, s.state⟩ i w (s.phil i).point = done r ∧
          t = s.after ps seats times i w r
  | PhiOp.resume i =>
      s.sem.sync.machine.current = seats.proc i ∧
        (∃ sem, SemStep cls s.sem (SemOp.resume sem (seats.proc i)) t.sem) ∧
        t.state = s.state ∧ t.phil = Function.update s.phil i ((s.phil i).nextSema times)
  | PhiOp.switch p =>
      SemStep cls s.sem (SemOp.switch p) t.sem ∧ t.state = s.state ∧ t.phil = s.phil
  | PhiOp.kill p =>
      SemStep cls s.sem (SemOp.kill p) t.sem ∧ t.state = s.state ∧ t.phil = s.phil
  | PhiOp.other =>
      SemStep cls s.sem SemOp.other t.sem ∧ t.state = s.state ∧ t.phil = s.phil

/-! ## The invariant -/

/-- The points between `down(&mutex)` and `up(&mutex)`. -/
def PhiPoint.Critical : PhiPoint → Prop
  | takeTest => True
  | takeLeave => True
  | putLeft => True
  | putRight => True
  | putLeave => True
  | _ => False

/-- `i` is in its critical section, or an `up` has handed it the unit of `mutex`. -/
def InSection (ps : PhiSems n) (seats : Seats n) (inDown : Nat → Option (Nat × Nat))
    (queue : Nat → List Nat) (phil : Fin n → Philosopher) (i : Fin n) : Prop :=
  (phil i).point.Critical ∨ Handed inDown queue ps.mutex (seats.proc i)

/-- `mutex` is free with the value `v` and the queue `q`, or exactly one philosopher is inside. -/
def MutexToken (v : Int) (q : List Nat) (inside : Fin n → Prop) : Prop :=
  (v = 1 ∧ q = [] ∧ ∀ i, ¬ inside i) ∨ (v = 0 ∧ ∃ i, ∀ j, inside j ↔ j = i)

/-- `s[i]` has a unit if and only if the philosopher has been set to `EATING`. -/
def Granted (st : PhiState) (v : Int) : Prop :=
  (st = hungry ∧ v = 0) ∨ (st = eating ∧ v = 1)

/-- What is known of a philosopher at a point: its state `st`, the value `v` of its semaphore, and
the `down` that it is in the middle of. -/
def SemaStage (ps : PhiSems n) (i : Fin n) (q : List Nat) (v : Int) (st : PhiState)
    (d : Option (Nat × Nat)) : PhiPoint → Prop
  | PhiPoint.loop => st = thinking ∧ v = 0 ∧ d = none
  | PhiPoint.take => st = thinking ∧ v = 0 ∧ ∀ e, d = some e → e.1 = ps.mutex
  | PhiPoint.takeTest => st = thinking ∧ v = 0 ∧ d = none
  | PhiPoint.takeLeave => Granted st v ∧ d = none
  | PhiPoint.takeWait => (Granted st v ∧ d = none) ∨
      ∃ w, d = some (ps.s i, w) ∧ v = 0 ∧ ((w ∈ q ∧ st = hungry) ∨ (w ∉ q ∧ st = eating))
  | PhiPoint.put => st = eating ∧ v = 0 ∧ ∀ e, d = some e → e.1 = ps.mutex
  | PhiPoint.putLeft => st = eating ∧ v = 0 ∧ d = none
  | PhiPoint.putRight => st = thinking ∧ v = 0 ∧ d = none
  | PhiPoint.putLeave => st = thinking ∧ v = 0 ∧ d = none
  | PhiPoint.quit => st = thinking ∧ v = 0 ∧ d = none

/-- The invariant of the semaphore version. -/
structure PhiSemaInv (ps : PhiSems n) (seats : Seats n) (s : PhiSemaSys Q n)
    (queue : Nat → List Nat) : Prop where
  waiting : Waiting s.sem.sync s.sem.inDown queue
  others : ∀ p, (∀ i, p ≠ seats.proc i) → s.sem.inDown p = none
  stage : ∀ i, SemaStage ps i (queue (ps.s i)) (s.sem.sync.value (ps.s i)) (s.state i)
    (s.sem.inDown (seats.proc i)) (s.phil i).point
  token : MutexToken (s.sem.sync.value ps.mutex) (queue ps.mutex)
    (InSection ps seats s.sem.inDown queue s.phil)
  table : PhiTable s.state (DueAt s.phil)

/-! ## The calls -/

variable {cls : SchedClass Q} {ps : PhiSems n} {seats : Seats n} {times : Nat}
  {s t : PhiSemaSys Q n} {queue : Nat → List Nat} {i j k : Fin n} {sem w p : Nat}
  {inDown : Nat → Option (Nat × Nat)} {sync : Sync Q}

theorem toInt_one : toInt (0 + 1) = 1 := by decide

theorem toInt_zero : toInt (1 - 1) = 0 := by decide

/-- `up` of a semaphore without units that only `p` waits for. -/
theorem up_own (cls : SchedClass Q) (h : Waiting sync inDown queue) (hv : sync.value sem = 0)
    (hown : ∀ w ∈ queue sem, (sync.waits.wait w).proc = p) :
    ∃ sync' queue', up cls sync sem = done sync' ∧ Waiting sync' inDown queue' ∧
      (∀ x, x ≠ sem → sync'.value x = sync.value x ∧ queue' x = queue x) ∧ queue' sem = [] ∧
      ((queue sem = [] ∧ sync'.value sem = 1) ∨
        ∃ w, w ∈ queue sem ∧ inDown p = some (sem, w) ∧ sync'.value sem = 0) := by
  cases hq : queue sem with
  | nil =>
      have hup := up_of_nil cls h hq
      rw [hv, toInt_one] at hup
      refine ⟨_, queue, hup, h.congr rfl fun _ _ => ⟨rfl, rfl⟩, fun x hx => ⟨?_, rfl⟩, hq,
        Or.inl ⟨rfl, ?_⟩⟩
      · simp [hx]
      · simp
  | cons w ws =>
      obtain ⟨sync', hup, hval, _, _, _, _, hwaiting⟩ := up_of_cons cls h hq
      have hin : ∀ u ∈ queue sem, inDown p = some (sem, u) := by
        intro u hu
        have hqueued := h.queued sem u hu
        rwa [hown u hu] at hqueued
      have hw : w ∈ queue sem := by simp [hq]
      -- The process is in the queue once, so the queue is empty now.
      have hnil : ws = [] := by
        have hnd := (List.nodup_cons.1 (h.ring sem).nodup).2.of_map
        rw [hq] at hnd
        cases ws with
        | nil => rfl
        | cons u us =>
            have hu : u ∈ queue sem := by simp [hq]
            have huw := hin u hu
            rw [hin w hw] at huw
            cases huw
            simp at hnd
      refine ⟨sync', Function.update queue sem ws, hup, hwaiting, fun x hx => ⟨?_, ?_⟩, ?_,
        Or.inr ⟨w, by simp, hin w hw, ?_⟩⟩
      · rw [hval]
      · rw [Function.update_of_ne hx]
      · rw [Function.update_self, hnil]
      · rw [hval, hv]

/-- Only the philosopher itself waits for its semaphore. -/
theorem PhiSemaInv.own (h : PhiSemaInv ps seats s queue) (k : Fin n) :
    ∀ w ∈ queue (ps.s k), (s.sem.sync.waits.wait w).proc = seats.proc k := by
  intro w hw
  have hin := h.waiting.queued _ w hw
  by_contra hne
  by_cases hphil : ∀ j, (s.sem.sync.waits.wait w).proc ≠ seats.proc j
  · rw [h.others _ hphil] at hin
    cases hin
  · push Not at hphil
    obtain ⟨j, hj⟩ := hphil
    have hjk : j ≠ k := by
      rintro rfl
      exact hne hj
    rw [hj] at hin
    have hstage := h.stage j
    rw [hin] at hstage
    -- Its `down` is on `mutex`, or on its own semaphore.
    cases hpt : (s.phil j).point with
    | takeWait =>
        rw [hpt] at hstage
        rcases hstage with ⟨_, hnone⟩ | ⟨u, hu, _⟩
        · cases hnone
        · exact hjk (ps.s_inj (Prod.mk.inj (Option.some.inj hu)).1).symm
    | take =>
        rw [hpt] at hstage
        exact ps.s_ne k (hstage.2.2 _ rfl)
    | put =>
        rw [hpt] at hstage
        exact ps.s_ne k (hstage.2.2 _ rfl)
    | loop =>
        rw [hpt] at hstage
        cases hstage.2.2
    | takeTest =>
        rw [hpt] at hstage
        cases hstage.2.2
    | takeLeave =>
        rw [hpt] at hstage
        cases hstage.2
    | putLeft =>
        rw [hpt] at hstage
        cases hstage.2.2
    | putRight =>
        rw [hpt] at hstage
        cases hstage.2.2
    | putLeave =>
        rw [hpt] at hstage
        cases hstage.2.2
    | quit =>
        rw [hpt] at hstage
        cases hstage.2.2

theorem PhiSemaInv.inside (h : PhiSemaInv ps seats s queue) (hi : (s.phil i).point.Critical) :
    s.sem.sync.value ps.mutex = 0 ∧
      ∀ j, InSection ps seats s.sem.inDown queue s.phil j ↔ j = i := by
  rcases h.token with ⟨_, _, hnone⟩ | ⟨hv, r, hr⟩
  · exact absurd (Or.inl hi) (hnone i)
  · have hir : i = r := (hr i).1 (Or.inl hi)
    subst hir
    exact ⟨hv, hr⟩

/-- While a philosopher is in its critical section, a hungry one is about to wait, or waits. -/
theorem PhiSemaInv.hungry_waits (h : PhiSemaInv ps seats s queue)
    (hi : (s.phil i).point.Critical) (hk : s.state k = hungry) (hne : k ≠ i) :
    (s.phil k).point = PhiPoint.takeWait ∧ s.sem.sync.value (ps.s k) = 0 ∧
      (s.sem.inDown (seats.proc k) = none ∨
        ∃ w, s.sem.inDown (seats.proc k) = some (ps.s k, w) ∧ w ∈ queue (ps.s k)) := by
  have hstage := h.stage k
  have hout : ¬ (s.phil k).point.Critical := fun hc =>
    hne (((h.inside hi).2 k).1 (Or.inl hc))
  rw [hk] at hstage
  cases hpt : (s.phil k).point with
  | takeWait =>
      rw [hpt] at hstage
      rcases hstage with ⟨⟨_, hv⟩ | ⟨hc, _⟩, hnone⟩ | ⟨w, hw, hv, ⟨hmem, _⟩ | ⟨_, hc⟩⟩
      · exact ⟨rfl, hv, Or.inl hnone⟩
      · cases hc
      · exact ⟨rfl, hv, Or.inr ⟨w, hw, hmem⟩⟩
      · cases hc
  | takeLeave =>
      rw [hpt] at hout
      exact absurd trivial hout
  | loop =>
      rw [hpt] at hstage
      cases hstage.1
  | take =>
      rw [hpt] at hstage
      cases hstage.1
  | takeTest =>
      rw [hpt] at hstage
      cases hstage.1
  | put =>
      rw [hpt] at hstage
      cases hstage.1
  | putLeft =>
      rw [hpt] at hstage
      cases hstage.1
  | putRight =>
      rw [hpt] at hstage
      cases hstage.1
  | putLeave =>
      rw [hpt] at hstage
      cases hstage.1
  | quit =>
      rw [hpt] at hstage
      cases hstage.1

/-! ## The parts keep the invariant -/

theorem handed_congr {queue' : Nat → List Nat} (h : queue' sem = queue sem) :
    Handed inDown queue' sem p ↔ Handed inDown queue sem p := by
  unfold Handed
  rw [h]

/-- A philosopher that moves on outside `down` keeps its side of the critical section. -/
theorem inSection_move {phil : Fin n → Philosopher} {x : Philosopher} {queue' : Nat → List Nat}
    (hq : queue' ps.mutex = queue ps.mutex) (hx : x.point.Critical ↔ (phil i).point.Critical) :
    InSection ps seats inDown queue' (Function.update phil i x) j ↔
      InSection ps seats inDown queue phil j := by
  unfold InSection
  rw [handed_congr hq]
  by_cases hj : j = i
  · subst hj
    rw [Function.update_self, hx]
  · rw [Function.update_of_ne hj]

/-- The philosopher `i` goes to its next part. -/
theorem PhiSemaInv.advance {sync' : Sync Q} {state' : Fin n → PhiState} {queue' : Nat → List Nat}
    (h : PhiSemaInv ps seats s queue) (hw : Waiting sync' s.sem.inDown queue')
    (hself : SemaStage ps i (queue' (ps.s i)) (sync'.value (ps.s i)) (state' i)
      (s.sem.inDown (seats.proc i)) ((s.phil i).nextSema times).point)
    (hrest : ∀ j, j ≠ i → SemaStage ps j (queue' (ps.s j)) (sync'.value (ps.s j)) (state' j)
      (s.sem.inDown (seats.proc j)) (s.phil j).point)
    (htoken : MutexToken (sync'.value ps.mutex) (queue' ps.mutex)
      (InSection ps seats s.sem.inDown queue'
        (Function.update s.phil i ((s.phil i).nextSema times))))
    (htable : PhiTable state' (DueAt (Function.update s.phil i ((s.phil i).nextSema times)))) :
    PhiSemaInv ps seats (s.after ps seats times i w (false, ⟨sync', state'⟩)) queue' := by
  refine ⟨hw, h.others, fun j => ?_, htoken, htable⟩
  change SemaStage ps j _ _ (state' j) (s.sem.inDown (seats.proc j))
    (Function.update s.phil i ((s.phil i).nextSema times) j).point
  by_cases hj : j = i
  · subst hj
    rw [Function.update_self]
    exact hself
  · rw [Function.update_of_ne hj]
    exact hrest j hj

/-- The philosopher `i` has to wait in `down`. -/
theorem PhiSemaInv.block (times sem : Nat) (h : PhiSemaInv ps seats s queue)
    (hcur : s.sem.sync.machine.current = seats.proc i)
    (hd : s.sem.inDown (seats.proc i) = none) (hfresh : FreshWait s.sem w)
    (hsem : sem = ps.downAt i (s.phil i).point) (hv : s.sem.sync.value sem = 0)
    (hself : SemaStage ps i (Function.update queue sem (queue sem ++ [w]) (ps.s i))
      (s.sem.sync.value (ps.s i)) (s.state i) (some (sem, w)) (s.phil i).point) :
    ∃ sync', down s.sem.sync sem w = done (true, sync') ∧
      PhiSemaInv ps seats (s.after ps seats times i w (true, ⟨sync', s.state⟩))
        (Function.update queue sem (queue sem ++ [w])) := by
  have hneg : ¬ 0 < s.sem.sync.value sem := by omega
  have hnone : s.sem.inDown s.sem.sync.machine.current = none := by rw [hcur, hd]
  obtain ⟨sync', hdown, hval, _, _, _, _, hwaiting⟩ :=
    down_of_not_pos h.waiting hneg hnone hfresh
  rw [hcur] at hwaiting
  have hforeign : ∀ j, j ≠ i → ps.s j ≠ sem := by
    intro j hj
    rw [hsem]
    cases (s.phil i).point with
    | takeWait => exact fun hc => hj (ps.s_inj hc)
    | _ => exact ps.s_ne j
  have hafter : s.after ps seats times i w (true, ⟨sync', s.state⟩) =
      { s with sem := ⟨sync', Function.update s.sem.inDown (seats.proc i) (some (sem, w))⟩ } := by
    rw [hsem]
    rfl
  have hinside : ∀ j, InSection ps seats (Function.update s.sem.inDown (seats.proc i)
      (some (sem, w))) (Function.update queue sem (queue sem ++ [w])) s.phil j ↔
        InSection ps seats s.sem.inDown queue s.phil j := fun j =>
    or_congr_right (handed_down hd hfresh ps.mutex (seats.proc j))
  refine ⟨sync', hdown, ?_⟩
  rw [hafter]
  refine ⟨hwaiting, fun p hp => ?_, fun j => ?_, ?_, h.table⟩
  · change Function.update s.sem.inDown (seats.proc i) (some (sem, w)) p = none
    rw [Function.update_of_ne (hp i)]
    exact h.others p hp
  · change SemaStage ps j _ (sync'.value (ps.s j)) (s.state j)
      (Function.update s.sem.inDown (seats.proc i) (some (sem, w)) (seats.proc j)) (s.phil j).point
    rw [hval]
    by_cases hj : j = i
    · subst hj
      rw [Function.update_self]
      exact hself
    · have hproc : seats.proc j ≠ seats.proc i := fun hc => hj (seats.inj hc)
      rw [Function.update_of_ne hproc, Function.update_of_ne (hforeign j hj)]
      exact h.stage j
  · change MutexToken (sync'.value ps.mutex) _ _
    rw [hval]
    rcases h.token with ⟨hone, hnil, hout⟩ | ⟨hzero, r, hr⟩
    · have hne : ps.mutex ≠ sem := by
        rintro rfl
        omega
      refine Or.inl ⟨hone, ?_, fun j hj => hout j ((hinside j).1 hj)⟩
      rw [Function.update_of_ne hne]
      exact hnil
    · exact Or.inr ⟨hzero, r, fun j => (hinside j).trans (hr j)⟩

/-- `down(&mutex)`: the philosopher enters its critical section, or waits. -/
theorem PhiSemaInv.lock (h : PhiSemaInv ps seats s queue)
    (hcur : s.sem.sync.machine.current = seats.proc i)
    (hd : s.sem.inDown (seats.proc i) = none) (hfresh : FreshWait s.sem w)
    (hpt : (s.phil i).point = PhiPoint.take ∨ (s.phil i).point = PhiPoint.put) :
    ∃ r queue', PhiSema.down ⟨s.sem.sync, s.state⟩ ps.mutex w = done r ∧
      PhiSemaInv ps seats (s.after ps seats times i w r) queue' := by
  have hat : ps.mutex = ps.downAt i (s.phil i).point := by
    rcases hpt with hpt | hpt
    all_goals rw [hpt]; rfl
  rcases h.token with ⟨hone, hnil, hout⟩ | ⟨hzero, r, hr⟩
  · have hdown := down_of_pos (w := w) (by omega : 0 < s.sem.sync.value ps.mutex)
    rw [hone, toInt_zero] at hdown
    refine ⟨_, queue, by rw [PhiSema.down, hdown]; rfl, ?_⟩
    have hval : ∀ j, Function.update s.sem.sync.value ps.mutex 0 (ps.s j) =
        s.sem.sync.value (ps.s j) := fun j => Function.update_of_ne (ps.s_ne j) _ _
    have hstage := h.stage i
    refine h.advance (h.waiting.congr rfl fun _ _ => ⟨rfl, rfl⟩) ?_ (fun j _ => ?_) (Or.inr ⟨?_,
      i, fun j => ?_⟩) (h.table.mono fun k hk => hk.frame ?_)
    · change SemaStage ps i _ (Function.update s.sem.sync.value ps.mutex 0 (ps.s i)) _ _ _
      rw [hval]
      rcases hpt with hpt | hpt
      all_goals
        simp only [hpt, SemaStage, Philosopher.nextSema] at hstage ⊢
        exact ⟨hstage.1, hstage.2.1, hd⟩
    · change SemaStage ps j _ (Function.update s.sem.sync.value ps.mutex 0 (ps.s j)) _ _ _
      rw [hval]
      exact h.stage j
    · exact Function.update_self ..
    · by_cases hj : j = i
      · subst hj
        refine iff_of_true (Or.inl ?_) rfl
        rw [Function.update_self]
        rcases hpt with hpt | hpt
        all_goals simp [Philosopher.nextSema, hpt, PhiPoint.Critical]
      · refine iff_of_false ?_ hj
        have hsame : InSection ps seats s.sem.inDown queue
            (Function.update s.phil i ((s.phil i).nextSema times)) j ↔
              InSection ps seats s.sem.inDown queue s.phil j := by
          unfold InSection
          rw [Function.update_of_ne hj]
        exact fun hc => hout j (hsame.1 hc)
    · rcases hpt with hpt | hpt
      all_goals simp [hpt]
  · have hstage := h.stage i
    obtain ⟨sync', hdown, hinv⟩ := h.block times ps.mutex hcur hd hfresh hat hzero (by
      rw [Function.update_of_ne (ps.s_ne i)]
      rcases hpt with hpt | hpt
      all_goals
        simp only [hpt, SemaStage] at hstage ⊢
        refine ⟨hstage.1, hstage.2.1, fun e he => ?_⟩
        cases he
        rfl)
    exact ⟨_, _, by rw [PhiSema.down, hdown]; rfl, hinv⟩

/-- `up(&mutex)`: the philosopher leaves its critical section. -/
theorem PhiSemaInv.unlock (cls : SchedClass Q) (times w : Nat) (h : PhiSemaInv ps seats s queue)
    (hcrit : (s.phil i).point.Critical) (hd : s.sem.inDown (seats.proc i) = none)
    (hnext : ¬ ((s.phil i).nextSema times).point.Critical)
    (hright : (s.phil i).point ≠ PhiPoint.putRight)
    (hself : SemaStage ps i (queue (ps.s i)) (s.sem.sync.value (ps.s i)) (s.state i) none
      ((s.phil i).nextSema times).point) :
    ∃ sync' queue', up cls s.sem.sync ps.mutex = done sync' ∧
      PhiSemaInv ps seats (s.after ps seats times i w (false, ⟨sync', s.state⟩)) queue' := by
  obtain ⟨hzero, honly⟩ := h.inside hcrit
  have htable : PhiTable s.state (DueAt (Function.update s.phil i ((s.phil i).nextSema times))) :=
    h.table.mono fun k hk => hk.frame hright
  -- Nobody else is inside, and `i` has no unit of `mutex` that it has not used.
  have hinside : ∀ (queue' : Nat → List Nat) (j : Fin n), InSection ps seats s.sem.inDown queue'
      (Function.update s.phil i ((s.phil i).nextSema times)) j ↔
        Handed s.sem.inDown queue' ps.mutex (seats.proc j) := by
    intro queue' j
    refine or_iff_right ?_
    by_cases hj : j = i
    · subst hj
      rwa [Function.update_self]
    · rw [Function.update_of_ne hj]
      exact fun hc => hj ((honly j).1 (Or.inl hc))
  have hfree : ∀ j, ¬ Handed s.sem.inDown queue ps.mutex (seats.proc j) := by
    intro j hj
    have hji := (honly j).1 (Or.inr hj)
    subst hji
    obtain ⟨u, hu, _⟩ := hj
    rw [hd] at hu
    cases hu
  cases hq : queue ps.mutex with
  | nil =>
      have hup := up_of_nil cls h.waiting hq
      rw [hzero, toInt_one] at hup
      have hval : ∀ j, Function.update s.sem.sync.value ps.mutex 1 (ps.s j) =
          s.sem.sync.value (ps.s j) := fun j => Function.update_of_ne (ps.s_ne j) _ _
      refine ⟨_, queue, hup, h.advance (h.waiting.congr rfl fun _ _ => ⟨rfl, rfl⟩) ?_
        (fun j _ => ?_) (Or.inl ⟨Function.update_self .., hq, fun j hj => ?_⟩) htable⟩
      · change SemaStage ps i _ (Function.update s.sem.sync.value ps.mutex 1 (ps.s i)) _ _ _
        rw [hval, hd]
        exact hself
      · change SemaStage ps j _ (Function.update s.sem.sync.value ps.mutex 1 (ps.s j)) _ _ _
        rw [hval]
        exact h.stage j
      · exact hfree j ((hinside queue j).1 hj)
  | cons u us =>
      obtain ⟨sync', hup, hval, _, _, _, _, hwaiting⟩ := up_of_cons cls h.waiting hq
      have hin := h.waiting.queued ps.mutex u (by simp [hq])
      have hphil : ∃ r, (s.sem.sync.waits.wait u).proc = seats.proc r := by
        by_contra hnone
        push Not at hnone
        rw [h.others _ hnone] at hin
        cases hin
      obtain ⟨r, hr⟩ := hphil
      have hqs : ∀ j, Function.update queue ps.mutex us (ps.s j) = queue (ps.s j) := fun j =>
        Function.update_of_ne (ps.s_ne j) _ _
      refine ⟨sync', Function.update queue ps.mutex us, hup, h.advance hwaiting ?_ (fun j _ => ?_)
        (Or.inr ⟨by rw [hval, hzero], r, fun j => ?_⟩) htable⟩
      · rw [hqs, hval, hd]
        exact hself
      · rw [hqs, hval]
        exact h.stage j
      · rw [hinside, h.waiting.handed_up hq, hr]
        constructor
        · rintro (hc | ⟨_, hc⟩)
          · exact absurd hc (hfree j)
          · exact seats.inj hc
        · rintro rfl
          exact Or.inr ⟨rfl, rfl⟩

/-- What a test of `k` by the philosopher `i` in its critical section leaves behind. -/
structure Tested (ps : PhiSems n) (seats : Seats n) (s : PhiSemaSys Q n) (queue : Nat → List Nat)
    (i : Fin n) (state' : Fin n → PhiState) (sync' : Sync Q) (queue' : Nat → List Nat) : Prop where
  waiting : Waiting sync' s.sem.inDown queue'
  value : sync'.value ps.mutex = s.sem.sync.value ps.mutex
  queue : queue' ps.mutex = queue ps.mutex
  stage : ∀ j, j ≠ i → SemaStage ps j (queue' (ps.s j)) (sync'.value (ps.s j)) (state' j)
    (s.sem.inDown (seats.proc j)) (s.phil j).point

/-- The test of a neighbour: if it is hungry and may eat now, it gets its unit. -/
theorem PhiSemaInv.testOther (cls : SchedClass Q) (h : PhiSemaInv ps seats s queue)
    (hi : (s.phil i).point.Critical) (state' : Fin n → PhiState)
    (hstate : ∀ j, j ≠ i → state' j = s.state j) (hne : k ≠ i) :
    ∃ sync' queue', phiTestSema cls ps ⟨s.sem.sync, state'⟩ k =
        done ⟨sync', testState state' k⟩ ∧
      Tested ps seats s queue i (testState state' k) sync' queue' ∧
      sync'.value (ps.s i) = s.sem.sync.value (ps.s i) := by
  by_cases hmay : MayEat state' k
  · have hk : s.state k = hungry := by
      rw [← hstate k hne]
      exact hmay.1
    obtain ⟨hpt, hv, hd⟩ := h.hungry_waits hi hk hne
    obtain ⟨sync', queue', hup, hwaiting, hframe, hnil, hres⟩ :=
      up_own cls h.waiting hv (h.own k)
    have hsem : ∀ j, j ≠ k → ps.s j ≠ ps.s k := fun j hj hc => hj (ps.s_inj hc)
    refine ⟨sync', queue', ?_, ⟨hwaiting, (hframe _ (ps.s_ne k).symm).1,
      (hframe _ (ps.s_ne k).symm).2, fun j hj => ?_⟩, (hframe _ (hsem i hne.symm)).1⟩
    · simp only [phiTestSema, if_pos hmay, hup, bind_done, pure_eq_done, testState_of_mayEat hmay]
    · by_cases hjk : j = k
      · subst hjk
        rw [testState_of_mayEat hmay, Function.update_self, hnil, hpt]
        rcases hres with ⟨hempty, hone⟩ | ⟨u, _, hu, hzero⟩
        · -- It has not called `down(&s[k])` yet.
          rcases hd with hnone | ⟨u, _, hmem⟩
          · exact Or.inl ⟨Or.inr ⟨rfl, hone⟩, hnone⟩
          · rw [hempty] at hmem
            cases hmem
        · exact Or.inr ⟨u, hu, hzero, Or.inr ⟨List.not_mem_nil, rfl⟩⟩
      · rw [testState_of_ne hjk, hstate j hj, (hframe _ (hsem j hjk)).1,
          (hframe _ (hsem j hjk)).2]
        exact h.stage j
  · refine ⟨s.sem.sync, queue, ?_, ⟨h.waiting, rfl, rfl, fun j hj => ?_⟩, rfl⟩
    · simp only [phiTestSema, if_neg hmay, pure_eq_done, testState_of_not hmay]
    · rw [testState_of_not hmay, hstate j hj]
      exact h.stage j

/-- The test of the philosopher itself, when it has become hungry. -/
theorem PhiSemaInv.testSelf (cls : SchedClass Q) (h : PhiSemaInv ps seats s queue)
    (hv : s.sem.sync.value (ps.s i) = 0) (hd : s.sem.inDown (seats.proc i) = none)
    (state' : Fin n → PhiState) (hstate : ∀ j, j ≠ i → state' j = s.state j)
    (hself : state' i = hungry) :
    ∃ sync' queue', phiTestSema cls ps ⟨s.sem.sync, state'⟩ i =
        done ⟨sync', testState state' i⟩ ∧
      Tested ps seats s queue i (testState state' i) sync' queue' ∧
      Granted (testState state' i i) (sync'.value (ps.s i)) := by
  by_cases hmay : MayEat state' i
  · obtain ⟨sync', queue', hup, hwaiting, hframe, _, hres⟩ :=
      up_own cls h.waiting hv (h.own i)
    have hsem : ∀ j, j ≠ i → ps.s j ≠ ps.s i := fun j hj hc => hj (ps.s_inj hc)
    refine ⟨sync', queue', ?_, ⟨hwaiting, (hframe _ (ps.s_ne i).symm).1,
      (hframe _ (ps.s_ne i).symm).2, fun j hj => ?_⟩, Or.inr ⟨?_, ?_⟩⟩
    · simp only [phiTestSema, if_pos hmay, hup, bind_done, pure_eq_done, testState_of_mayEat hmay]
    · rw [testState_of_ne hj, hstate j hj, (hframe _ (hsem j hj)).1, (hframe _ (hsem j hj)).2]
      exact h.stage j
    · rw [testState_of_mayEat hmay, Function.update_self]
    · rcases hres with ⟨_, hone⟩ | ⟨u, _, hu, _⟩
      · exact hone
      · rw [hd] at hu
        cases hu
  · refine ⟨s.sem.sync, queue, ?_, ⟨h.waiting, rfl, rfl, fun j hj => ?_⟩, Or.inl ⟨?_, hv⟩⟩
    · simp only [phiTestSema, if_neg hmay, pure_eq_done, testState_of_not hmay]
    · rw [testState_of_not hmay, hstate j hj]
      exact h.stage j
    · rw [testState_of_not hmay, hself]

/-- A test keeps the invariant. -/
theorem PhiSemaInv.tested {state' : Fin n → PhiState} {sync' : Sync Q} {queue' : Nat → List Nat}
    (h : PhiSemaInv ps seats s queue) (ht : Tested ps seats s queue i state' sync' queue')
    (hi : (s.phil i).point.Critical) (hnext : ((s.phil i).nextSema times).point.Critical)
    (hself : SemaStage ps i (queue' (ps.s i)) (sync'.value (ps.s i)) (state' i)
      (s.sem.inDown (seats.proc i)) ((s.phil i).nextSema times).point)
    (htable : PhiTable state' (DueAt (Function.update s.phil i ((s.phil i).nextSema times)))) :
    PhiSemaInv ps seats (s.after ps seats times i w (false, ⟨sync', state'⟩)) queue' := by
  obtain ⟨hzero, honly⟩ := h.inside hi
  refine h.advance ht.waiting hself ht.stage (Or.inr ⟨by rw [ht.value, hzero], i, fun j => ?_⟩)
    htable
  exact (inSection_move ht.queue (iff_of_true hnext hi)).trans (honly j)

/-- `down(&s[i])`: the philosopher takes its unit, or waits for a neighbour. -/
theorem PhiSemaInv.await (h : PhiSemaInv ps seats s queue)
    (hcur : s.sem.sync.machine.current = seats.proc i)
    (hd : s.sem.inDown (seats.proc i) = none) (hfresh : FreshWait s.sem w)
    (hpt : (s.phil i).point = PhiPoint.takeWait) :
    ∃ r queue', PhiSema.down ⟨s.sem.sync, s.state⟩ (ps.s i) w = done r ∧
      PhiSemaInv ps seats (s.after ps seats times i w r) queue' := by
  have hstage := h.stage i
  rw [hpt] at hstage
  have hgranted : Granted (s.state i) (s.sem.sync.value (ps.s i)) := by
    rcases hstage with ⟨hg, _⟩ | ⟨u, hu, _⟩
    · exact hg
    · rw [hd] at hu
      cases hu
  have hmutex : ps.mutex ≠ ps.s i := (ps.s_ne i).symm
  rcases hgranted with ⟨hhungry, hzero⟩ | ⟨heating, hone⟩
  · obtain ⟨sync', hdown, hinv⟩ := h.block times (ps.s i) hcur hd hfresh
      (by rw [hpt]; rfl) hzero (by
        rw [hpt]
        refine Or.inr ⟨w, rfl, hzero, Or.inl ⟨?_, hhungry⟩⟩
        rw [Function.update_self]
        simp)
    exact ⟨_, _, by rw [PhiSema.down, hdown]; rfl, hinv⟩
  · have hdown := down_of_pos (w := w) (by omega : 0 < s.sem.sync.value (ps.s i))
    rw [hone, toInt_zero] at hdown
    have hnext : ((s.phil i).nextSema times).point = PhiPoint.put := by
      simp [Philosopher.nextSema, hpt]
    refine ⟨_, queue, by rw [PhiSema.down, hdown]; rfl, ?_⟩
    refine h.advance (h.waiting.congr rfl fun _ _ => ⟨rfl, rfl⟩) ?_ (fun j hj => ?_) ?_
      (h.table.mono fun k hk => hk.frame (by simp [hpt]))
    · rw [hnext, hd]
      refine ⟨heating, Function.update_self .., fun e he => ?_⟩
      cases he
    · have hsem : ps.s j ≠ ps.s i := fun hc => hj (ps.s_inj hc)
      change SemaStage ps j _ (Function.update s.sem.sync.value (ps.s i) 0 (ps.s j)) _ _ _
      rw [Function.update_of_ne hsem]
      exact h.stage j
    · change MutexToken (Function.update s.sem.sync.value (ps.s i) 0 ps.mutex) _ _
      rw [Function.update_of_ne hmutex]
      have hsame : ∀ j, InSection ps seats s.sem.inDown queue
          (Function.update s.phil i ((s.phil i).nextSema times)) j ↔
            InSection ps seats s.sem.inDown queue s.phil j := fun j =>
        inSection_move rfl (by simp [hnext, hpt, PhiPoint.Critical])
      simpa only [MutexToken, hsame] using h.token

/-- A part runs to its end, or to its call of `schedule`, and keeps the invariant. -/
theorem PhiSemaInv.act (cls : SchedClass Q) (hn : 2 ≤ n) (h : PhiSemaInv ps seats s queue)
    (hcur : s.sem.sync.machine.current = seats.proc i)
    (hd : s.sem.inDown (seats.proc i) = none) (hfresh : FreshWait s.sem w)
    (hquit : (s.phil i).point ≠ PhiPoint.quit) :
    ∃ r queue', phiSemaPart cls ps ⟨s.sem.sync, s.state⟩ i w (s.phil i).point = done r ∧
      PhiSemaInv ps seats (s.after ps seats times i w r) queue' := by
  have hstage := h.stage i
  cases hpt : (s.phil i).point with
  | loop =>
      rw [hpt] at hstage
      have hnext : ¬ ((s.phil i).nextSema times).point.Critical ∧ SemaStage ps i
          (queue (ps.s i)) (s.sem.sync.value (ps.s i)) (s.state i) none
            ((s.phil i).nextSema times).point := by
        simp only [Philosopher.nextSema, hpt]
        split
        · exact ⟨not_false, hstage.1, hstage.2.1, fun e he => by cases he⟩
        · exact ⟨not_false, hstage.1, hstage.2.1, rfl⟩
      have hsame : ∀ j, InSection ps seats s.sem.inDown queue
          (Function.update s.phil i ((s.phil i).nextSema times)) j ↔
            InSection ps seats s.sem.inDown queue s.phil j := fun j =>
        inSection_move rfl (iff_of_false hnext.1 (by simp [hpt, PhiPoint.Critical]))
      refine ⟨_, queue, rfl, h.advance h.waiting ?_ (fun j _ => h.stage j) ?_
        (h.table.mono fun k hk => hk.frame (by simp [hpt]))⟩
      · rw [hd]
        exact hnext.2
      · simpa only [MutexToken, hsame] using h.token
  | take => exact h.lock hcur hd hfresh (Or.inl hpt)
  | takeTest =>
      rw [hpt] at hstage
      have hnot : s.state i ≠ eating := by simp [hstage.1]
      obtain ⟨sync', queue', htest, ht, hg⟩ := h.testSelf cls
        hstage.2.1 hd (Function.update s.state i hungry) (fun j hj => Function.update_of_ne hj _ _) (Function.update_self ..)
      refine ⟨_, queue', by simp only [phiSemaPart, htest, bind_done, pure_eq_done],
        h.tested ht (by simp [hpt, PhiPoint.Critical]) ?_ ?_ ((h.table.request hnot).test hn ?_)⟩
      · simp [Philosopher.nextSema, hpt, PhiPoint.Critical]
      · simp only [Philosopher.nextSema, hpt]
        exact ⟨hg, hd⟩
      · exact fun k hk => hk.imp_right fun hdue => hdue.frame (by simp [hpt])
  | takeLeave =>
      rw [hpt] at hstage
      obtain ⟨sync', queue', hup, hinv⟩ := h.unlock cls times w (i := i)
        (by simp [hpt, PhiPoint.Critical]) hd
        (by simp [Philosopher.nextSema, hpt, PhiPoint.Critical]) (by simp [hpt]) (by
          simp only [Philosopher.nextSema, hpt]
          exact Or.inl ⟨hstage.1, rfl⟩)
      exact ⟨_, queue', by simp only [phiSemaPart, PhiSema.up, hup, bind_done, pure_eq_done], hinv⟩
  | takeWait => exact h.await hcur hd hfresh hpt
  | put => exact h.lock hcur hd hfresh (Or.inr hpt)
  | putLeft =>
      rw [hpt] at hstage
      have hcrit : (s.phil i).point.Critical := by simp [hpt, PhiPoint.Critical]
      obtain ⟨sync', queue', htest, ht, hval⟩ := h.testOther cls hcrit
        (Function.update s.state i thinking) (fun j hj => Function.update_of_ne hj _ _) (leftOf_ne hn i)
      refine ⟨_, queue', by simp only [phiSemaPart, htest, bind_done, pure_eq_done],
        h.tested ht hcrit ?_ ?_ ((h.table.release i).test hn ?_)⟩
      · simp [Philosopher.nextSema, hpt, PhiPoint.Critical]
      · simp only [Philosopher.nextSema, hpt]
        refine ⟨?_, hval.trans hstage.2.1, hd⟩
        rw [testState_of_ne (leftOf_ne hn i).symm, Function.update_self]
      · rintro k (hk | rfl | hdue)
        · exact Or.inl hk
        · -- The right neighbour is tested next.
          refine Or.inr ⟨i, ?_, rfl⟩
          rw [Function.update_self]
          simp [Philosopher.nextSema, hpt]
        · exact Or.inr (hdue.frame (by simp [hpt]))
  | putRight =>
      rw [hpt] at hstage
      have hcrit : (s.phil i).point.Critical := by simp [hpt, PhiPoint.Critical]
      obtain ⟨sync', queue', htest, ht, hval⟩ := h.testOther cls hcrit s.state (fun j _ => rfl) (rightOf_ne hn i)
      refine ⟨_, queue', by simp only [phiSemaPart, htest, bind_done, pure_eq_done],
        h.tested ht hcrit ?_ ?_ (h.table.test hn fun k hk => hk.tested)⟩
      · simp [Philosopher.nextSema, hpt, PhiPoint.Critical]
      · simp only [Philosopher.nextSema, hpt]
        refine ⟨?_, hval.trans hstage.2.1, hd⟩
        rw [testState_of_ne (rightOf_ne hn i).symm]
        exact hstage.1
  | putLeave =>
      rw [hpt] at hstage
      obtain ⟨sync', queue', hup, hinv⟩ := h.unlock cls times w (i := i)
        (by simp [hpt, PhiPoint.Critical]) hd
        (by simp [Philosopher.nextSema, hpt, PhiPoint.Critical]) (by simp [hpt]) (by
          simp only [Philosopher.nextSema, hpt]
          exact ⟨hstage.1, hstage.2.1, rfl⟩)
      exact ⟨_, queue', by simp only [phiSemaPart, PhiSema.up, hup, bind_done, pure_eq_done], hinv⟩
  | quit => exact absurd hpt hquit

/-- A philosopher that was woken in `down` goes to its next part. -/
theorem PhiSemaInv.resume (h : PhiSemaInv ps seats s queue)
    (hcur : s.sem.sync.machine.current = seats.proc i)
    (hstep : SemStep cls s.sem (SemOp.resume sem (seats.proc i)) t.sem)
    (hstate : t.state = s.state)
    (hphil : t.phil = Function.update s.phil i ((s.phil i).nextSema times)) :
    PhiSemaInv ps seats t queue := by
  obtain ⟨hrun, _, u, hu, hres, hin⟩ := hstep
  rw [hcur] at hu hin hrun
  have hnot : u ∉ queue sem := by
    intro hc
    rw [(h.waiting.asleep _ sem u hu hc).1] at hrun
    cases hrun
  obtain ⟨hdone, hwaiting⟩ := downResume_of_handed h.waiting hu hnot
  rw [hdone] at hres
  have hsync := (done.inj hres).symm
  have hstage := h.stage i
  rw [hu] at hstage
  have hother : ∀ j, j ≠ i → t.sem.inDown (seats.proc j) = s.sem.inDown (seats.proc j) := by
    intro j hj
    rw [hin, Function.update_of_ne fun hc => hj (seats.inj hc)]
  have hgone : t.sem.inDown (seats.proc i) = none := by
    rw [hin, Function.update_self]
  -- The philosopher waited on `mutex`, or on its own semaphore.
  have hmoved : (∀ k, DueAt s.phil k → DueAt t.phil k) ∧
      SemaStage ps i (queue (ps.s i)) (s.sem.sync.value (ps.s i)) (s.state i) none
        ((s.phil i).nextSema times).point ∧
      (((s.phil i).nextSema times).point.Critical ↔ sem = ps.mutex) ∧
      ¬ (s.phil i).point.Critical := by
    rw [hphil]
    cases hpt : (s.phil i).point with
    | take =>
        rw [hpt] at hstage
        simp only [Philosopher.nextSema, hpt]
        exact ⟨fun k hk => hk.frame (by simp [hpt]), ⟨hstage.1, hstage.2.1, rfl⟩,
          iff_of_true trivial (hstage.2.2 _ rfl), not_false⟩
    | put =>
        rw [hpt] at hstage
        simp only [Philosopher.nextSema, hpt]
        exact ⟨fun k hk => hk.frame (by simp [hpt]), ⟨hstage.1, hstage.2.1, rfl⟩,
          iff_of_true trivial (hstage.2.2 _ rfl), not_false⟩
    | takeWait =>
        rw [hpt] at hstage
        rcases hstage with ⟨_, hnone⟩ | ⟨u', hu', hv, hcase⟩
        · cases hnone
        · cases hu'
          rcases hcase with ⟨hmem, _⟩ | ⟨_, heats⟩
          · exact absurd hmem hnot
          · simp only [Philosopher.nextSema, hpt]
            exact ⟨fun k hk => hk.frame (by simp [hpt]),
              ⟨heats, hv, fun e he => by cases he⟩, iff_of_false not_false (ps.s_ne i), not_false⟩
    | loop =>
        rw [hpt] at hstage
        cases hstage.2.2
    | takeTest =>
        rw [hpt] at hstage
        cases hstage.2.2
    | takeLeave =>
        rw [hpt] at hstage
        cases hstage.2
    | putLeft =>
        rw [hpt] at hstage
        cases hstage.2.2
    | putRight =>
        rw [hpt] at hstage
        cases hstage.2.2
    | putLeave =>
        rw [hpt] at hstage
        cases hstage.2.2
    | quit =>
        rw [hpt] at hstage
        cases hstage.2.2
  obtain ⟨hdue, hnext, hcrit, hwas⟩ := hmoved
  refine ⟨?_, fun p hp => ?_, fun j => ?_, ?_, ?_⟩
  · rw [hsync, hin]
    exact hwaiting
  · rw [hin, Function.update_of_ne (hp i)]
    exact h.others p hp
  · rw [hsync, hstate, hphil]
    by_cases hj : j = i
    · subst hj
      rw [hgone, Function.update_self]
      exact hnext
    · rw [hother j hj, Function.update_of_ne hj]
      exact h.stage j
  · have hsame : ∀ j, InSection ps seats t.sem.inDown queue t.phil j ↔
        InSection ps seats s.sem.inDown queue s.phil j := by
      intro j
      unfold InSection
      rw [hphil]
      by_cases hj : j = i
      · subst hj
        rw [Function.update_self, hcrit]
        unfold Handed
        rw [hgone, hu]
        simp only [hwas, false_or, reduceCtorEq, false_and, exists_false, or_false]
        constructor
        · rintro rfl
          exact ⟨u, rfl, hnot⟩
        · rintro ⟨u', hu', _⟩
          cases hu'
          rfl
      · rw [Function.update_of_ne hj]
        unfold Handed
        rw [hother j hj]
    rw [hsync]
    simpa only [MutexToken, hsame] using h.token
  · rw [hstate]
    exact h.table.mono hdue

/-- An action of the rest of the machine. -/
theorem PhiSemaInv.rest (h : PhiSemaInv ps seats s queue) (hin : t.sem.inDown = s.sem.inDown)
    (hvalue : t.sem.sync.value = s.sem.sync.value) (hwaits : t.sem.sync.waits = s.sem.sync.waits)
    (hproc : ∀ p, s.sem.inDown p ≠ none →
      (t.sem.sync.machine.proc p).state = (s.sem.sync.machine.proc p).state ∧
        (t.sem.sync.machine.proc p).waitState = (s.sem.sync.machine.proc p).waitState)
    (hstate : t.state = s.state) (hphil : t.phil = s.phil) : PhiSemaInv ps seats t queue := by
  refine ⟨?_, ?_, ?_, ?_, ?_⟩
  · rw [hin]
    exact h.waiting.congr hwaits hproc
  · rw [hin]
    exact h.others
  · rw [hin, hvalue, hstate, hphil]
    exact h.stage
  · rw [hin, hvalue, hphil]
    exact h.token
  · rw [hstate, hphil]
    exact h.table

theorem PhiSemaInv.step {op : PhiOp n} (hn : 2 ≤ n) (h : PhiSemaInv ps seats s queue)
    (hstep : PhiSemaStep cls ps seats times s op t) : ∃ queue', PhiSemaInv ps seats t queue' := by
  cases op with
  | act i =>
      obtain ⟨⟨_, hd⟩, hcur, hquit, w, r, hfresh, hpart, rfl⟩ := hstep
      rw [hcur] at hd
      obtain ⟨r', queue', hpart', hinv : PhiSemaInv ps seats (s.after ps seats times i w r') _⟩ :=
        h.act cls hn hcur hd hfresh hquit
      rw [hpart] at hpart'
      cases hpart'
      exact ⟨queue', hinv⟩
  | resume i =>
      obtain ⟨hcur, ⟨sem, hres⟩, hstate, hphil⟩ := hstep
      exact ⟨queue, h.resume hcur hres hstate hphil⟩
  | switch p =>
      obtain ⟨⟨_, hin, hvalue, hwaits, _, hproc⟩, hstate, hphil⟩ := hstep
      exact ⟨queue, h.rest hin hvalue hwaits (fun q _ => hproc q) hstate hphil⟩
  | kill p =>
      obtain ⟨⟨hin, hvalue, hwaits, r, hkill⟩, hstate, hphil⟩ := hstep
      exact ⟨queue, h.rest hin hvalue hwaits (h.waiting.killProc_frame hkill) hstate hphil⟩
  | other =>
      obtain ⟨⟨hin, hvalue, hwaits, hproc⟩, hstate, hphil⟩ := hstep
      exact ⟨queue, h.rest hin hvalue hwaits hproc hstate hphil⟩

/-! ## Safety and progress -/

/-- `i` sleeps in the middle of `down`. -/
def PhiSemaSys.Blocked (s : PhiSemaSys Q n) (seats : Seats n) (i : Fin n) : Prop :=
  s.sem.inDown (seats.proc i) ≠ none ∧
    (s.sem.sync.machine.proc (seats.proc i)).state = ProcState.sleeping

/-- A blocked philosopher is in the queue of the semaphore that it waits for. -/
theorem PhiSemaInv.queued (h : PhiSemaInv ps seats s queue) (hi : s.Blocked seats i) :
    ∃ sem w, s.sem.inDown (seats.proc i) = some (sem, w) ∧ w ∈ queue sem := by
  obtain ⟨⟨sem, w⟩, hw⟩ := Option.ne_none_iff_exists'.1 hi.1
  refine ⟨sem, w, hw, ?_⟩
  by_contra hnot
  have hrun := (h.waiting.handed _ sem w hw hnot).1
  rw [hi.2] at hrun
  cases hrun

/-- A blocked philosopher that somebody eats next to cannot be the end of the story. -/
theorem PhiSemaInv.progress (h : PhiSemaInv ps seats s queue)
    (hlive : (s.phil i).point ≠ PhiPoint.quit) :
    ∃ j, (s.phil j).point ≠ PhiPoint.quit ∧ ¬ s.Blocked seats j := by
  by_contra hall
  push Not at hall
  -- Everybody that has not finished is in a queue, so nobody has the unit of `mutex`.
  have hout : ∀ j, ¬ InSection ps seats s.sem.inDown queue s.phil j := by
    intro j hj
    have hstage := h.stage j
    have hpt : (s.phil j).point ≠ PhiPoint.quit := by
      intro hc
      rw [hc] at hstage
      rcases hj with hcrit | ⟨w, hw, _⟩
      · rw [hc] at hcrit
        exact hcrit
      · rw [hstage.2.2] at hw
        cases hw
    obtain ⟨sem, w, hw, hmem⟩ := h.queued (hall j hpt)
    rcases hj with hcrit | ⟨w', hw', hnot⟩
    · rw [hw] at hstage
      cases hx : (s.phil j).point with
      | takeTest => rw [hx] at hstage; cases hstage.2.2
      | takeLeave => rw [hx] at hstage; cases hstage.2
      | putLeft => rw [hx] at hstage; cases hstage.2.2
      | putRight => rw [hx] at hstage; cases hstage.2.2
      | putLeave => rw [hx] at hstage; cases hstage.2.2
      | _ => rw [hx] at hcrit; exact hcrit
    · rw [hw] at hw'
      cases hw'
      exact hnot hmem
  obtain ⟨hnil, hdue⟩ : queue ps.mutex = [] ∧ ∀ k, ¬ DueAt s.phil k := by
    rcases h.token with ⟨_, hnil, _⟩ | ⟨_, r, hr⟩
    · refine ⟨hnil, ?_⟩
      rintro k ⟨j, hj, _⟩
      exact hout j (Or.inl (by rw [hj]; trivial))
    · exact absurd ((hr r).2 rfl) (hout r)
  -- So everybody that has not finished waits for its own semaphore, and is hungry.
  have hhungry : ∀ j, (s.phil j).point ≠ PhiPoint.quit → s.state j = hungry := by
    intro j hj
    obtain ⟨sem, w, hw, hmem⟩ := h.queued (hall j hj)
    have hstage := h.stage j
    rw [hw] at hstage
    have hmutex : sem ≠ ps.mutex := by
      rintro rfl
      rw [hnil] at hmem
      cases hmem
    cases hx : (s.phil j).point with
    | takeWait =>
        rw [hx] at hstage
        rcases hstage with ⟨_, hc⟩ | ⟨u, hu, _, ⟨_, hst⟩ | ⟨hnot, _⟩⟩
        · cases hc
        · exact hst
        · cases hu
          exact absurd hmem hnot
    | take => rw [hx] at hstage; exact absurd (hstage.2.2 _ rfl) hmutex
    | put => rw [hx] at hstage; exact absurd (hstage.2.2 _ rfl) hmutex
    | takeLeave => rw [hx] at hstage; cases hstage.2
    | _ => rw [hx] at hstage; cases hstage.2.2
  -- But then a neighbour eats, and it has not finished.
  have heats : ∀ j, s.state j ≠ eating := by
    intro j hj
    have hstage := h.stage j
    have hpt : (s.phil j).point ≠ PhiPoint.quit := by
      intro hc
      rw [hc, hj] at hstage
      cases hstage.1
    rw [hhungry j hpt] at hj
    cases hj
  rcases h.table.served i (hhungry i hlive) with hd | hl | hr
  · exact hdue i hd
  · exact heats _ hl
  · exact heats _ hr

theorem PhiSemaInv.dines (h : PhiSemaInv ps seats s queue) :
    Dines s.state s.phil (s.Blocked seats) := by
  refine ⟨h.table.exclusive, fun i hi => ?_, fun ⟨i, hi⟩ => h.progress hi⟩
  have hstage := h.stage i
  rw [hi] at hstage
  exact hstage.1

theorem PhiSemaInv.value_le_one (h : PhiSemaInv ps seats s queue) (i : Fin n) :
    s.sem.sync.value (ps.s i) ≤ 1 := by
  have hstage := h.stage i
  have hgranted : ∀ {st v}, Granted st v → v ≤ 1 := by
    rintro st v (⟨_, rfl⟩ | ⟨_, rfl⟩)
    · decide
    · exact le_rfl
  cases hx : (s.phil i).point with
  | takeLeave =>
      rw [hx] at hstage
      exact hgranted hstage.1
  | takeWait =>
      rw [hx] at hstage
      rcases hstage with ⟨hg, _⟩ | ⟨_, _, hv, _⟩
      · exact hgranted hg
      · rw [hv]
        decide
  | _ =>
      rw [hx] at hstage
      rw [hstage.2.1]
      decide

/-- The state after the calls of `sem_init` and `kernel_thread` in `check_sync`. -/
structure PhiSemaStart (ps : PhiSems n) (s : PhiSemaSys Q n) : Prop where
  mutex : s.sem.sync.value ps.mutex = 1
  forks : ∀ i, s.sem.sync.value (ps.s i) = 0
  ring : ∀ sem, Ring s.sem.sync.waits.link (WaitNode.head sem) []
  outside : ∀ p, s.sem.inDown p = none
  state : ∀ i, s.state i = thinking
  phil : ∀ i, s.phil i = ⟨PhiPoint.loop, 0⟩

theorem PhiSemaStart.inv (h : PhiSemaStart ps s) (seats : Seats n) :
    PhiSemaInv ps seats s fun _ => [] := by
  have hhanded : ∀ sem p, ¬ Handed s.sem.inDown (fun _ => []) sem p := by
    rintro sem p ⟨w, hw, _⟩
    rw [h.outside p] at hw
    cases hw
  refine ⟨⟨h.ring, ?_, ?_, ?_, ?_⟩, fun p _ => h.outside p, fun i => ?_,
    Or.inl ⟨h.mutex, rfl, ?_⟩, ⟨?_, ?_⟩⟩
  · intro sem w hw
    cases hw
  · intro p sem w hp
    rw [h.outside p] at hp
    cases hp
  · intro p sem w hp
    rw [h.outside p] at hp
    cases hp
  · intro p sem w hp
    rw [h.outside p] at hp
    cases hp
  · rw [h.phil i]
    exact ⟨h.state i, h.forks i, h.outside _⟩
  · rintro i (hc | hc)
    · rw [h.phil i] at hc
      exact hc
    · exact hhanded _ _ hc
  · intro i hi
    rw [h.state i] at hi
    cases hi
  · intro i hi
    rw [h.state i] at hi
    cases hi

/-- Every state of a run satisfies the invariant. -/
theorem PhiSemaInv.run {ops : List (PhiOp n)} (hn : 2 ≤ n) (hstart : PhiSemaStart ps s)
    (hrun : Run (PhiSemaStep cls ps seats times) s ops t) :
    ∃ queue, PhiSemaInv ps seats t queue :=
  hrun.invariant (fun t => ∃ queue, PhiSemaInv ps seats t queue)
    (fun _ _ _ ⟨_, h⟩ hstep => h.step hn hstep) ⟨_, hstart.inv seats⟩

end TriOS
