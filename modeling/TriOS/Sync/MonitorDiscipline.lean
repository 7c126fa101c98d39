import TriOS.Sync.MonitorRuns
import TriOS.Sync.SemRuns

/-!
# Monitor discipline — the theorem about whole runs

Every action keeps the invariant of the monitor and the history of every condition variable; a
process that was signalled stays the holder of the token until it goes on.
-/

namespace TriOS

open CircularList Outcome Transition

variable {Q : Type} {cls : SchedClass Q} {mt : Monitor} {s t : MonitorSys Q}
  {queue queue' : Nat → List Nat} {ops : List MonitorOp} {op : MonitorOp} {pend : List Nat}
  {p q cv w : Nat}

/-- The invariant, and a history for every condition variable. -/
structure MonitorHistory (mt : Monitor) (s : MonitorSys Q) (queue : Nat → List Nat)
    (ops : List MonitorOp) : Prop where
  inv : MonitorInv mt s queue
  ledger : ∀ cv, ∃ pend, Ledger mt s queue ops cv pend

/-- What an action keeps: the history, and the pending processes that do not take it. -/
structure MonitorKept (mt : Monitor) (s t : MonitorSys Q) (queue queue' : Nat → List Nat)
    (ops : List MonitorOp) (op : MonitorOp) : Prop where
  history : MonitorHistory mt t queue' (ops ++ [op])
  pending : ∀ cv q, PendingOn mt s.pc queue cv q → (∀ c, op ≠ MonitorOp.resume q c) →
    PendingOn mt t.pc queue' cv q

/-- An action that concerns no condition variable. -/
theorem MonitorHistory.frame (h : MonitorHistory mt s queue ops) (hinv : MonitorInv mt t queue')
    (hop : ∀ cv, op.waits cv = none ∧ op.wakes cv = none ∧ op.resumes cv = none)
    (hqueue : ∀ cv, queue' (mt.cvSem cv) = queue (mt.cvSem cv))
    (hproc : ∀ cv, ∀ w ∈ queue (mt.cvSem cv),
      (t.st.sync.waits.wait w).proc = (s.st.sync.waits.wait w).proc)
    (hpc : ∀ cv p w, t.pc p = MonitorPc.waiting cv w ↔ s.pc p = MonitorPc.waiting cv w) :
    MonitorKept mt s t queue queue' ops op := by
  refine ⟨⟨hinv, fun cv => ?_⟩, ?_⟩
  · rcases h.ledger cv with ⟨pend, hl⟩
    exact ⟨pend, hl.frame (hop cv).1 (hop cv).2.1 (hop cv).2.2 (hqueue cv) (hproc cv) (hpc cv)⟩
  · rintro cv q ⟨w, hw, hnot⟩ _
    refine ⟨w, (hpc cv q w).2 hw, ?_⟩
    rw [hqueue]
    exact hnot

/-- A process that waits on no condition variable before and after the action. -/
theorem waiting_update {pc : Nat → MonitorPc} {x : MonitorPc} (hp : (pc p).cv = none)
    (hx : x.cv = none) (cv q w : Nat) :
    Function.update pc p x q = MonitorPc.waiting cv w ↔ pc q = MonitorPc.waiting cv w := by
  by_cases hq : q = p
  · subst hq
    rw [Function.update_self]
    constructor
    · intro hc
      rw [hc] at hx
      cases hx
    · intro hc
      rw [hc] at hp
      cases hp
  · rw [Function.update_of_ne hq]

/-- A process that is in the queue of a condition variable waits on it. -/
theorem eq_waiting_of_inDown {x : MonitorPc} (h : x.inDown mt = some (mt.cvSem cv, w)) :
    x = MonitorPc.waiting cv w := by
  cases x with
  | outside => cases h
  | active => cases h
  | entering u => exact absurd (Prod.mk.inj (Option.some.inj h)).1.symm (mt.cvSem_ne_mutex cv)
  | signalling u => exact absurd (Prod.mk.inj (Option.some.inj h)).1.symm (mt.cvSem_ne_next cv)
  | waiting cv' u =>
      rcases Prod.mk.inj (Option.some.inj h) with ⟨hcv, rfl⟩
      rw [mt.cvSem_inj _ _ hcv]

/-- The wait of the current process is not yet in a queue. -/
theorem MonitorInv.ne_of_mem (h : MonitorInv mt s queue) (hfresh : UnusedWait mt s w) {v sem : Nat}
    (hv : v ∈ queue sem) : v ≠ w := by
  rintro rfl
  exact hfresh _ sem (h.waiting.queued sem v hv)

theorem MonitorHistory.enter (h : MonitorHistory mt s queue ops)
    (hstep : MonitorStep cls mt s (MonitorOp.enter p) t) :
    ∃ queue', MonitorKept mt s t queue queue' ops (MonitorOp.enter p) := by
  rcases hstep with ⟨⟨hcur, _⟩, hp, w, blocked, hfresh, hcall, hpc⟩
  rcases h.inv.enter hcur hp hfresh with ⟨blocked', st, queue', hcall', hproc, hqueue, hinv⟩
  rw [hcall] at hcall'
  cases hcall'
  rw [← hpc] at hinv
  refine ⟨queue', h.frame hinv (fun cv => ⟨rfl, rfl, rfl⟩) hqueue
    (fun cv v hv => hproc v (h.inv.ne_of_mem hfresh hv)) fun cv q v => ?_⟩
  rw [hpc]
  refine waiting_update (by rw [hp]; rfl) ?_ cv q v
  cases blocked <;> rfl

theorem MonitorHistory.leave (h : MonitorHistory mt s queue ops)
    (hstep : MonitorStep cls mt s (MonitorOp.leave p) t) :
    ∃ queue', MonitorKept mt s t queue queue' ops (MonitorOp.leave p) := by
  rcases hstep with ⟨_, hp, hcall, hpc⟩
  rcases h.inv.leave cls hp with ⟨st, queue', hcall', hproc, hqueue, hinv⟩
  rw [hcall] at hcall'
  cases hcall'
  rw [← hpc] at hinv
  refine ⟨queue', h.frame hinv (fun cv => ⟨rfl, rfl, rfl⟩) hqueue (fun cv v _ => hproc v)
    fun cv q v => ?_⟩
  rw [hpc]
  exact waiting_update (by rw [hp]; rfl) rfl cv q v

theorem MonitorHistory.wait {cv : Nat} (h : MonitorHistory mt s queue ops)
    (hstep : MonitorStep cls mt s (MonitorOp.wait p cv) t) :
    ∃ queue', MonitorKept mt s t queue queue' ops (MonitorOp.wait p cv) := by
  rcases hstep with ⟨⟨hcur, _⟩, hp, w, blocked, hfresh, hcall, hpc⟩
  rcases h.inv.wait cls hcur hp hfresh cv with ⟨st, queue', hcall', hproc, hw, hqueue, hinv⟩
  rw [hcall] at hcall'
  cases hcall'
  rw [if_pos rfl] at hpc
  rw [← hpc] at hinv
  have hold : ∀ cv', ∀ v ∈ queue (mt.cvSem cv'),
      (t.st.sync.waits.wait v).proc = (s.st.sync.waits.wait v).proc := fun cv' v hv =>
    hproc v (h.inv.ne_of_mem hfresh hv)
  refine ⟨queue', ⟨hinv, fun cv' => ?_⟩, fun cv' q hq => absurd hq (h.inv.not_pendingOn hp q)⟩
  rcases h.ledger cv' with ⟨pend, hl⟩
  have hnil := h.inv.pending_nil hp hl
  subst hnil
  refine ⟨[], ?_⟩
  by_cases hc : cv' = cv
  · subst hc
    have hsame : waiters t (queue (mt.cvSem cv')) = waiters s (queue (mt.cvSem cv')) :=
      List.map_congr_left (hold cv')
    refine hl.step ?_ ?_ List.nodup_nil fun r => ?_
    · rw [hqueue, if_pos rfl]
      have hsplit : waiters t (queue (mt.cvSem cv') ++ [w]) =
          waiters t (queue (mt.cvSem cv')) ++ [p] := by
        simp [waiters, hw]
      rw [hsplit, hsame]
      simp [MonitorOp.waits, MonitorOp.wakes]
    · simp [MonitorOp.wakes, MonitorOp.resumes]
    · -- Nobody was pending, and `p` is in the queue.
      refine ⟨fun hr => absurd hr (List.not_mem_nil), ?_⟩
      rintro ⟨v, hv, hnot⟩
      rw [hqueue, if_pos rfl, List.mem_append, not_or] at hnot
      rw [hpc] at hv
      by_cases hr : r = p
      · subst hr
        rw [Function.update_self] at hv
        cases hv
        exact absurd List.mem_cons_self hnot.2
      · rw [Function.update_of_ne hr] at hv
        exact absurd ⟨v, hv, hnot.1⟩ (h.inv.not_pendingOn hp r)
  · refine hl.frame ?_ rfl rfl ?_ (hold cv') fun r v => ?_
    · simp [MonitorOp.waits, Ne.symm hc]
    · rw [hqueue, if_neg hc]
    · rw [hpc]
      by_cases hr : r = p
      · subst hr
        simp [hp, Ne.symm hc]
      · rw [Function.update_of_ne hr]

theorem eq_singleton_of_nodup {l : List Nat} (hnd : l.Nodup) (hp : p ∈ l)
    (hall : ∀ q ∈ l, q = p) : l = [p] := by
  have hrep := List.eq_replicate_of_mem hall
  rw [hrep] at hnd
  have hle := List.nodup_replicate.1 hnd
  have hpos := List.length_pos_of_mem hp
  have hone : l.length = 1 := by omega
  rw [hrep, hone]
  rfl

/-- A signal that wakes somebody. -/
structure Signalled (mt : Monitor) (s t : MonitorSys Q) (queue' : Nat → List Nat) (cv q : Nat) :
    Prop where
  waited : (s.pc q).WaitsOn cv
  pending : PendingOn mt t.pc queue' cv q

theorem MonitorHistory.signal {woken : Option Nat} (h : MonitorHistory mt s queue ops)
    (hstep : MonitorStep cls mt s (MonitorOp.signal p cv woken) t) :
    ∃ queue', MonitorKept mt s t queue queue' ops (MonitorOp.signal p cv woken) ∧
      (s.st.count cv > 0 → ∃ q, woken = some q ∧ Signalled mt s t queue' cv q) := by
  rcases hstep with ⟨⟨hcur, _⟩, hp, w, blocked, hfresh, hcall, hpc, hwoken⟩
  by_cases hcount : s.st.count cv > 0
  · rcases h.inv.signal cls hcur hp hfresh hcount with
      ⟨st, queue', v, ws, hcall', hcons, hvw, hproc, hqueue, hinv, hholds⟩
    rw [hcall] at hcall'
    cases hcall'
    rw [if_pos rfl] at hpc
    rw [← hpc] at hinv hholds
    rw [if_pos hcount] at hwoken
    have hfirst : woken = some (s.st.sync.waits.wait v).proc := by
      rw [hwoken, firstWaiter, h.inv.waiting.first, hcons]
      rfl
    subst hfirst
    generalize hq : (s.st.sync.waits.wait v).proc = q at *
    have hin : (s.pc q).inDown mt = some (mt.cvSem cv, v) := by
      have := h.inv.waiting.queued (mt.cvSem cv) v (by simp [hcons])
      rwa [hq] at this
    have hpcq : s.pc q = MonitorPc.waiting cv v := eq_waiting_of_inDown hin
    have hqp : q ≠ p := by
      rintro rfl
      rw [hp] at hpcq
      cases hpcq
    have hpcq' : t.pc q = MonitorPc.waiting cv v := by
      rw [hpc, Function.update_of_ne hqp]
      exact hpcq
    have hpending : PendingOn mt t.pc queue' cv q := by
      rcases (hholds q).2 rfl with hactive | ⟨sem, u, hu, hnot⟩
      · rw [hpcq'] at hactive
        cases hactive
      · have hu' : (t.pc q).inDown mt = some (sem, u) := hu
        rw [hpcq'] at hu'
        rcases Prod.mk.inj (Option.some.inj hu') with ⟨rfl, rfl⟩
        exact ⟨v, hpcq', hnot⟩
    have hwaiting : ∀ cv' r u, t.pc r = MonitorPc.waiting cv' u ↔
        s.pc r = MonitorPc.waiting cv' u := by
      intro cv' r u
      rw [hpc]
      exact waiting_update (by rw [hp]; rfl) rfl cv' r u
    have hold : ∀ cv', ∀ u ∈ queue (mt.cvSem cv'),
        (t.st.sync.waits.wait u).proc = (s.st.sync.waits.wait u).proc := fun cv' u hu =>
      hproc u (h.inv.ne_of_mem hfresh hu)
    refine ⟨queue', ⟨⟨hinv, fun cv' => ?_⟩, fun cv' r hr => absurd hr (h.inv.not_pendingOn hp r)⟩,
      fun _ => ⟨q, rfl, ⟨v, hpcq⟩, hpending⟩⟩
    rcases h.ledger cv' with ⟨pend, hl⟩
    have hnil := h.inv.pending_nil hp hl
    subst hnil
    by_cases hc : cv' = cv
    · subst hc
      refine ⟨[q], hl.step ?_ ?_ (List.nodup_singleton q) fun r => ?_⟩
      · have hsame : waiters t ws = waiters s ws :=
          List.map_congr_left fun u hu => hold cv' u (by simp [hcons, hu])
        rw [hqueue, if_pos rfl, hcons, hsame]
        simp [waiters, hq, MonitorOp.waits, MonitorOp.wakes]
      · simp [MonitorOp.wakes, MonitorOp.resumes]
      · rw [List.mem_singleton]
        constructor
        · rintro rfl
          exact hpending
        · intro hr
          exact (hholds r).1 hr.holds
    · refine ⟨[], hl.frame rfl ?_ rfl ?_ (hold cv') (hwaiting cv')⟩
      · simp [MonitorOp.wakes, Ne.symm hc]
      · rw [hqueue, if_neg hc]
  · rw [condSignal_of_not_pos hcount] at hcall
    rw [if_neg hcount] at hwoken
    rcases Prod.mk.inj (done.inj hcall) with ⟨rfl, hst⟩
    subst hwoken
    have hsame : t.pc = s.pc := by
      rw [hpc]
      exact Function.update_eq_self_iff.2 hp.symm
    have ht : t = s := by
      cases t
      cases s
      simp_all
    subst ht
    refine ⟨queue, h.frame h.inv (fun cv' => ⟨rfl, ?_, rfl⟩) (fun _ => rfl) (fun _ _ _ => rfl)
      fun _ _ _ => Iff.rfl, fun hc => absurd hc hcount⟩
    simp [MonitorOp.wakes]

theorem MonitorHistory.resume {c : Option Nat} (h : MonitorHistory mt s queue ops)
    (hstep : MonitorStep cls mt s (MonitorOp.resume p c) t) :
    ∃ queue', MonitorKept mt s t queue queue' ops (MonitorOp.resume p c) := by
  rcases hstep with ⟨hrun, hcall, rfl, hpc⟩
  have hin : s.inDown mt p ≠ none := by
    intro hc
    rw [MonitorSys.inDown] at hc
    cases hx : s.pc p with
    | outside =>
        rw [hx] at hcall
        cases hcall
    | active =>
        rw [hx] at hcall
        cases hcall
    | entering u => simp [hx, MonitorPc.inDown] at hc
    | signalling u => simp [hx, MonitorPc.inDown] at hc
    | waiting cv u => simp [hx, MonitorPc.inDown] at hc
  rcases h.inv.resume hrun hin with ⟨st, hcall', hsync, hholds, hinv⟩
  rw [hcall] at hcall'
  cases hcall'
  rw [← hpc] at hinv
  have honly := (h.inv.holder hholds).2
  refine ⟨queue, ⟨hinv, fun cv => ?_⟩, ?_⟩
  · rcases h.ledger cv with ⟨pend, hl⟩
    by_cases hcv : (s.pc p).cv = some cv
    · -- `p` was the only pending process.
      rcases hx : s.pc p with _ | _ | _ | _ | ⟨cv', w⟩
      all_goals
        rw [hx] at hcv
        cases hcv
      have hp : PendingOn mt s.pc queue cv p := by
        rcases hholds with ha | ⟨sem, u, hu, hnot⟩
        · rw [hx] at ha
          cases ha
        · have hu' : (s.pc p).inDown mt = some (sem, u) := hu
          rw [hx] at hu'
          rcases Prod.mk.inj (Option.some.inj hu') with ⟨rfl, rfl⟩
          exact ⟨w, hx, hnot⟩
      have hpend : pend = [p] := eq_singleton_of_nodup hl.nodup ((hl.mem p).2 hp) fun r hr =>
        (honly r).1 ((hl.mem r).1 hr).holds
      subst hpend
      have hsame : waiters t (queue (mt.cvSem cv)) = waiters s (queue (mt.cvSem cv)) := by
        simp only [waiters, hsync]
      refine ⟨[], hl.step ?_ ?_ List.nodup_nil fun r => ?_⟩
      · simp [MonitorOp.waits, MonitorOp.wakes, hsame]
      · simp [MonitorOp.wakes, MonitorOp.resumes, MonitorPc.cv]
      · refine ⟨fun hr => absurd hr List.not_mem_nil, ?_⟩
        intro hr
        exact absurd hr (hinv.not_pendingOn (p := p) (by simp [hpc]) r)
    · refine ⟨pend, hl.frame rfl rfl ?_ rfl ?_ ?_⟩
      · cases hx : (s.pc p).cv with
        | none => rfl
        | some cv' =>
            rw [hx] at hcv
            have hne : cv' ≠ cv := fun hc => hcv (congrArg some hc)
            simp [MonitorOp.resumes, hne]
      · intro u _
        rw [hsync]
      · intro r u
        rw [hpc]
        by_cases hr : r = p
        · subst hr
          rw [Function.update_self]
          constructor
          · intro hc
            cases hc
          · intro hc
            rw [hc] at hcv
            exact absurd rfl hcv
        · rw [Function.update_of_ne hr]
  · rintro cv q ⟨w, hw, hnot⟩ hne
    have hqp : q ≠ p := by
      rintro rfl
      exact hne _ rfl
    refine ⟨w, ?_, hnot⟩
    rw [hpc, Function.update_of_ne hqp]
    exact hw

/-- The rest of the machine does something. -/
theorem MonitorHistory.machine (h : MonitorHistory mt s queue ops)
    (hop : ∀ cv, op.waits cv = none ∧ op.wakes cv = none ∧ op.resumes cv = none) {m : Machine Q}
    (hpc : t.pc = s.pc)
    (ht : t.st = { s.st with sync := { s.st.sync with machine := m } })
    (hproc : ∀ q, s.inDown mt q ≠ none →
      (m.proc q).state = (s.st.sync.machine.proc q).state ∧
        (m.proc q).waitState = (s.st.sync.machine.proc q).waitState) :
    MonitorKept mt s t queue queue ops op := by
  have hinv := h.inv.machine hproc
  rw [← ht, ← hpc] at hinv
  refine h.frame hinv hop (fun _ => rfl) (fun cv w _ => ?_) fun cv q w => ?_
  · rw [ht]
  · rw [hpc]

theorem MonitorHistory.step (h : MonitorHistory mt s queue ops) (hstep : MonitorStep cls mt s op t) :
    ∃ queue', MonitorKept mt s t queue queue' ops op := by
  cases op with
  | enter p => exact h.enter hstep
  | signal p cv woken =>
      rcases h.signal hstep with ⟨queue', hkept, _⟩
      exact ⟨queue', hkept⟩
  | wait p cv => exact h.wait hstep
  | leave p => exact h.leave hstep
  | resume p c => exact h.resume hstep
  | switch p =>
      rcases hstep with ⟨_, hpc, m, ht, _, hproc⟩
      exact ⟨queue, h.machine (fun _ => ⟨rfl, rfl, rfl⟩) hpc ht fun q _ => hproc q⟩
  | kill p =>
      rcases hstep with ⟨hpc, r, m, hkill, ht⟩
      exact ⟨queue, h.machine (fun _ => ⟨rfl, rfl, rfl⟩) hpc ht
        (h.inv.waiting.killProc_frame hkill)⟩
  | other =>
      rcases hstep with ⟨hpc, m, ht, hproc⟩
      exact ⟨queue, h.machine (fun _ => ⟨rfl, rfl, rfl⟩) hpc ht hproc⟩

/-! ## Whole runs -/

/-- `monitor_init`: the monitor is free, and nobody uses it. -/
structure MonitorFree (mt : Monitor) (s : MonitorSys Q) : Prop where
  mutex : s.st.sync.value mt.mutex = 1
  next : s.st.sync.value mt.next = 0
  cvSem : ∀ cv, s.st.sync.value (mt.cvSem cv) = 0
  nextCount : s.st.nextCount = 0
  count : ∀ cv, s.st.count cv = 0
  ring : ∀ sem, Ring s.st.sync.waits.link (WaitNode.head sem) []
  outside : ∀ p, s.pc p = MonitorPc.outside

theorem MonitorFree.history (h : MonitorFree mt s) : MonitorHistory mt s (fun _ => []) [] := by
  have hnone : ∀ p, s.inDown mt p = none := by
    intro p
    rw [MonitorSys.inDown, h.outside]
    rfl
  have hholds : ∀ p, ¬ Holds mt s.pc (fun _ => []) p := by
    rintro p (hp | ⟨sem, w, hw, _⟩)
    · rw [h.outside] at hp
      cases hp
    · have hp : s.inDown mt p = some (sem, w) := hw
      rw [hnone] at hp
      cases hp
  refine ⟨⟨⟨h.ring, ?_, ?_, ?_, ?_⟩, h.next, h.cvSem, ?_, ?_,
    Or.inl ⟨h.mutex, h.nextCount, rfl, hholds⟩⟩, fun cv => ⟨[], rfl, rfl, List.nodup_nil, ?_⟩⟩
  · intro sem w hw
    cases hw
  · intro p sem w hp
    rw [hnone p] at hp
    cases hp
  · intro p sem w hp
    rw [hnone p] at hp
    cases hp
  · intro p sem w hp
    rw [hnone p] at hp
    cases hp
  · rw [h.nextCount]
    exact counts_zero fun p => by simp [MonitorPc.Signals, h.outside]
  · intro cv
    rw [h.count]
    exact counts_zero fun p => by simp [MonitorPc.WaitsOn, h.outside]
  · intro p
    simp [PendingOn, h.outside]

theorem MonitorHistory.run {bs : List MonitorOp} (h : MonitorHistory mt s queue ops)
    (hrun : Run (MonitorStep cls mt) s bs t) : ∃ queue', MonitorHistory mt t queue' (ops ++ bs) := by
  refine hrun.trace_invariant (fun bs t => ∃ queue', MonitorHistory mt t queue' (ops ++ bs)) ?_
    ⟨queue, by simpa using h⟩
  rintro bs u op v ⟨queue', hu⟩ hstep
  rcases hu.step hstep with ⟨queue'', hkept⟩
  exact ⟨queue'', by simpa using hkept.history⟩

/-- A process that was woken stays pending as long as it does not go on. -/
theorem MonitorHistory.run_pending {bs : List MonitorOp} (h : MonitorHistory mt s queue ops)
    (hq : PendingOn mt s.pc queue cv q) (hrun : Run (MonitorStep cls mt) s bs t)
    (hnot : ∀ c, MonitorOp.resume q c ∉ bs) :
    ∃ queue', MonitorHistory mt t queue' (ops ++ bs) ∧ PendingOn mt t.pc queue' cv q := by
  have hinv := hrun.trace_invariant (fun bs t => (∀ c, MonitorOp.resume q c ∉ bs) →
    ∃ queue', MonitorHistory mt t queue' (ops ++ bs) ∧ PendingOn mt t.pc queue' cv q) ?_
    fun _ => ⟨queue, by simpa using h, hq⟩
  · exact hinv hnot
  · intro bs u op v ih hstep hnot
    rcases ih fun c hc => hnot c (List.mem_append_left _ hc) with ⟨queue', hu, hpend⟩
    rcases hu.step hstep with ⟨queue'', hkept⟩
    refine ⟨queue'', by simpa using hkept.history, hkept.pending cv q hpend ?_⟩
    rintro c rfl
    exact hnot c (List.mem_append_right _ List.mem_cons_self)

/-- The calls that the current process can make next return: their assertions hold. -/
structure MonitorReturns (cls : SchedClass Q) (mt : Monitor) (s : MonitorSys Q) : Prop where
  enter : ∀ p w, Runs s p → s.pc p = MonitorPc.outside → UnusedWait mt s w →
    ∃ r, enterMonitor mt s.st w = done r
  signal : ∀ p w cv, Runs s p → s.pc p = MonitorPc.active → UnusedWait mt s w →
    ∃ r, condSignal cls mt s.st cv w = done r
  wait : ∀ p w cv, Runs s p → s.pc p = MonitorPc.active → UnusedWait mt s w →
    ∃ r, condWait cls mt s.st cv w = done r
  leave : ∀ p, s.pc p = MonitorPc.active → ∃ st, leaveMonitor cls mt s.st = done st
  resume : ∀ p, Runs s p → s.inDown mt p ≠ none → ∃ st, monitorResume mt s.st (s.pc p) = done st

theorem MonitorInv.returns (cls : SchedClass Q) (h : MonitorInv mt s queue) :
    MonitorReturns cls mt s := by
  refine ⟨fun p w hrun hp hfresh => ?_, fun p w cv hrun hp hfresh => ?_,
    fun p w cv hrun hp hfresh => ?_, fun p hp => ?_, fun p hrun hp => ?_⟩
  · rcases h.enter hrun.1 hp hfresh with ⟨blocked, st, _, hcall, _⟩
    exact ⟨_, hcall⟩
  · by_cases hcount : s.st.count cv > 0
    · rcases h.signal cls hrun.1 hp hfresh hcount with ⟨st, _, _, _, hcall, _⟩
      exact ⟨_, hcall⟩
    · exact ⟨_, condSignal_of_not_pos hcount⟩
  · rcases h.wait cls hrun.1 hp hfresh cv with ⟨st, _, hcall, _⟩
    exact ⟨_, hcall⟩
  · rcases h.leave cls hp with ⟨st, _, hcall, _⟩
    exact ⟨st, hcall⟩
  · rcases h.resume hrun hp with ⟨st, hcall, _⟩
    exact ⟨st, hcall⟩

/-- In every state that a run reaches, at most one process is active, the counters count the
signallers and the waiters, and every condition variable has its history: waiters are woken in
order and go on each once. A signal of a condition with a waiter wakes one, and nobody is active in
the monitor until that process goes on. -/
theorem monitor_discipline (cls : SchedClass Q) (mt : Monitor) {s t : MonitorSys Q}
    {ops : List MonitorOp} (hfree : MonitorFree mt s)
    (hrun : Run (MonitorStep cls mt) s ops t) :
    MonitorReturns cls mt t ∧
    (∀ p q, t.pc p = MonitorPc.active → t.pc q = MonitorPc.active → p = q) ∧
    Counts (fun p => (t.pc p).Signals) t.st.nextCount ∧
    (∀ cv, Counts (fun p => (t.pc p).WaitsOn cv) (t.st.count cv)) ∧
    (∃ queue, MonitorInv mt t queue ∧ ∀ cv, ∃ pending, Ledger mt t queue ops cv pending) ∧
    ∀ p cv woken u, MonitorStep cls mt t (MonitorOp.signal p cv woken) u → t.st.count cv > 0 →
      ∃ q, woken = some q ∧ (t.pc q).WaitsOn cv ∧
        ∀ after v, Run (MonitorStep cls mt) u after v → (∀ c, MonitorOp.resume q c ∉ after) →
          (v.pc q).WaitsOn cv ∧ ∀ r, v.pc r ≠ MonitorPc.active := by
  rcases hfree.history.run hrun with ⟨queue, h⟩
  refine ⟨h.inv.returns cls, fun p q hp hq => ?_, h.inv.signallers, h.inv.waiters,
    ⟨queue, h.inv, h.ledger⟩, fun p cv woken u hstep hcount => ?_⟩
  · exact (((h.inv.holder (Or.inl hp)).2 q).1 (Or.inl hq)).symm
  · rcases h.signal hstep with ⟨queue', hkept, hsignal⟩
    rcases hsignal hcount with ⟨q, hwoken, hsig⟩
    refine ⟨q, hwoken, hsig.waited, fun after v hafter hnot => ?_⟩
    rcases hkept.history.run_pending hsig.pending hafter hnot with ⟨queue'', hv, hpend⟩
    refine ⟨?_, fun r hr => hv.inv.not_pendingOn hr q hpend⟩
    rcases hpend with ⟨w, hw, _⟩
    exact ⟨w, hw⟩

/-- A monitor with `mutex` at 0, `next` at 1 and the condition variables behind them. -/
def plainMonitor : Monitor :=
  { mutex := 0
    next := 1
    cvSem := fun cv => cv + 2
    next_ne := by decide
    cvSem_ne_mutex := fun cv => by omega
    cvSem_ne_next := fun cv => by omega
    cvSem_inj := fun cv cv' h => by omega }

/-- Process 1 runs, and the monitor is free. -/
def monitorStart : MonitorSys RunQueue :=
  { st :=
      { sync := { (semStart 0).sync with value := Function.update (fun _ => 0) 0 1 }
        nextCount := 0
        count := fun _ => 0 }
    pc := fun _ => MonitorPc.outside }

theorem monitorFree_start : MonitorFree plainMonitor monitorStart :=
  ⟨rfl, rfl, fun _ => rfl, rfl, fun _ => rfl, fun _ => ⟨by simp, rfl, rfl⟩, fun _ => rfl⟩

/-- Process 1 has entered. -/
def monitorEntered : MonitorSys RunQueue :=
  { st := match enterMonitor plainMonitor monitorStart.st 7 with
      | done r => r.2
      | _ => monitorStart.st
    pc := Function.update monitorStart.pc 1 MonitorPc.active }

/-- Process 1 waits on condition variable 0. -/
def monitorAsleep : MonitorSys RunQueue :=
  { st := match condWait defaultSchedClass plainMonitor monitorEntered.st 0 8 with
      | done r => r.2
      | _ => monitorEntered.st
    pc := Function.update monitorEntered.pc 1 (MonitorPc.waiting 0 8) }

theorem monitorStep_enter :
    MonitorStep defaultSchedClass plainMonitor monitorStart (MonitorOp.enter 1) monitorEntered :=
  ⟨⟨rfl, rfl⟩, rfl, 7, false, (fun _ _ h => nomatch h), rfl, rfl⟩

theorem monitorStep_wait :
    MonitorStep defaultSchedClass plainMonitor monitorEntered (MonitorOp.wait 1 0)
      monitorAsleep := by
  refine ⟨⟨rfl, rfl⟩, rfl, 8, true, fun p sem h => ?_, rfl, rfl⟩
  by_cases hp : p = 1
  · subst hp
    cases h
  · have hpc : monitorEntered.pc p = MonitorPc.outside := Function.update_of_ne hp _ _
    rw [MonitorSys.inDown, hpc] at h
    cases h

/-- A process enters and waits. -/
theorem monitor_discipline_asleep :
    (monitorAsleep.pc 1).WaitsOn 0 ∧ MonitorReturns defaultSchedClass plainMonitor monitorAsleep ∧
    (∀ p q, monitorAsleep.pc p = MonitorPc.active → monitorAsleep.pc q = MonitorPc.active →
      p = q) := by
  have hrun : Run (MonitorStep defaultSchedClass plainMonitor) monitorStart
      [MonitorOp.enter 1, MonitorOp.wait 1 0] monitorAsleep :=
    Run.cons monitorStep_enter (Run.cons monitorStep_wait Run.nil)
  have h := monitor_discipline defaultSchedClass plainMonitor monitorFree_start hrun
  exact ⟨⟨8, rfl⟩, h.1, h.2.1⟩

end TriOS
