import TriOS.Library.Transition
import TriOS.Schedule.Stride
import TriOS.Schedule.Timer

/-!
# Runs of the timer list

`Agenda` is what the timer list is for: every pending timer has an absolute tick at which it fires.
The list of differences simulates it, with the same timers woken at every tick; how long a sleep
takes is then a fact about agendas.
-/

namespace TriOS

open CircularList DeltaQueue Outcome Transition

/-! ## Agendas -/

/-- The steps of a machine that concern its timers. A tick lists the timers it wakes. -/
inductive TimerOp where
  | sleep (timer expires : Nat)
  | del (timer : Nat)
  | tick (woken : List Nat)
  | kill (proc : Nat)
  | other
  deriving DecidableEq, Repr

/-- The number of ticks so far, and the tick at which each pending timer fires. -/
structure Agenda where
  now : Nat
  due : Nat → Option Nat

/-- One step of an agenda. -/
def AgendaStep (a : Agenda) (op : TimerOp) (b : Agenda) : Prop :=
  match op with
  | TimerOp.sleep timer expires =>
      0 < expires ∧ a.due timer = none ∧ b = ⟨a.now, Function.update a.due timer (some (a.now + expires))⟩
  | TimerOp.del timer => b = ⟨a.now, Function.update a.due timer none⟩
  | TimerOp.tick woken =>
      woken.Nodup ∧ (∀ t, t ∈ woken ↔ a.due t = some (a.now + 1)) ∧
        b = ⟨a.now + 1, fun t => if a.due t = some (a.now + 1) then none else a.due t⟩
  | TimerOp.kill _ => b = a
  | TimerOp.other => b = a

/-- The timers that a step wakes, if it is a tick. -/
def TimerOp.woken : TimerOp → Option (List Nat)
  | TimerOp.tick woken => some woken
  | _ => none

/-- The timers woken by the ticks of a run, tick by tick. -/
def ticks (ops : List TimerOp) : List (List Nat) :=
  ops.filterMap TimerOp.woken

/-- The run neither adds nor deletes the timer. -/
def Untouched (timer : Nat) (ops : List TimerOp) : Prop :=
  ∀ op ∈ ops, op ≠ TimerOp.del timer ∧ ∀ e, op ≠ TimerOp.sleep timer e

variable {a b : Agenda} {ops : List TimerOp} {timer e : Nat}

theorem ticks_snoc (ops : List TimerOp) (op : TimerOp) :
    ticks (ops ++ [op]) = ticks ops ++ op.woken.toList := by
  unfold ticks
  rw [List.filterMap_append]
  cases op <;> rfl

/-- Along a run that does not touch it, a timer stays pending for the ticks that are left, fires at
the last of them, and is silent from then on. -/
theorem agenda_run (hrun : Run AgendaStep a ops b) (hdue : a.due timer = some (a.now + e))
    (he : 0 < e) (hops : Untouched timer ops) :
    b.now = a.now + (ticks ops).length ∧
      b.due timer = (if (ticks ops).length < e then some (a.now + e) else none) ∧
      (∀ i woken, (ticks ops)[i]? = some woken → (timer ∈ woken ↔ i + 1 = e) ∧ woken.Nodup) := by
  induction hrun with
  | nil => exact ⟨rfl, by simp [ticks, he, hdue], by simp [ticks]⟩
  | @snoc ops op c d hrun hstep ih =>
      have hsub : Untouched timer ops := fun op' hop => hops op' (by simp [hop])
      rcases ih hsub with ⟨hnow, hd, hwoken⟩
      have hop := hops op (by simp)
      cases op with
      | sleep t x =>
          have hne : timer ≠ t := fun hc => hop.2 x (by rw [hc])
          rcases hstep with ⟨_, _, rfl⟩
          simpa [ticks_snoc, TimerOp.woken, hne] using ⟨hnow, hd, hwoken⟩
      | del t =>
          have hne : timer ≠ t := fun hc => hop.1 (by rw [hc])
          have hdc : d = _ := hstep
          subst hdc
          simpa [ticks_snoc, TimerOp.woken, hne] using ⟨hnow, hd, hwoken⟩
      | kill p =>
          have hdc : d = c := hstep
          subst hdc
          simpa [ticks_snoc, TimerOp.woken] using ⟨hnow, hd, hwoken⟩
      | other =>
          have hdc : d = c := hstep
          subst hdc
          simpa [ticks_snoc, TimerOp.woken] using ⟨hnow, hd, hwoken⟩
      | tick woken =>
          rcases hstep with ⟨hnodup, hmem, rfl⟩
          have hlen : (ticks (ops ++ [TimerOp.tick woken])).length = (ticks ops).length + 1 := by
            simp [ticks_snoc, TimerOp.woken]
          -- The timer fires now exactly if one tick was left.
          have hfires : c.due timer = some (c.now + 1) ↔ (ticks ops).length + 1 = e := by
            rw [hd, hnow]
            by_cases hlt : (ticks ops).length < e
            · rw [if_pos hlt]
              simp only [Option.some.injEq]
              omega
            · rw [if_neg hlt]
              simp only [reduceCtorEq, false_iff]
              omega
          refine ⟨by rw [hlen]; change c.now + 1 = _; omega, ?_, ?_⟩
          · change (if c.due timer = some (c.now + 1) then none else c.due timer) = _
            by_cases hf : (ticks ops).length + 1 = e
            · rw [if_pos (hfires.2 hf), hlen, if_neg (by omega)]
            · rw [if_neg (fun hc => hf (hfires.1 hc)), hd, hlen]
              by_cases hlt : (ticks ops).length < e
              · rw [if_pos hlt, if_pos (by omega)]
              · rw [if_neg hlt, if_neg (by omega)]
          · intro i w hi
            rw [ticks_snoc] at hi
            by_cases hlt : i < (ticks ops).length
            · rw [List.getElem?_append_left hlt] at hi
              exact hwoken i w hi
            · rw [List.getElem?_append_right (not_lt.1 hlt)] at hi
              have hi0 : i = (ticks ops).length ∧ w = woken := by
                have hsome : [woken][i - (ticks ops).length]? = some w := hi
                rw [List.getElem?_singleton] at hsome
                by_cases h0 : i - (ticks ops).length = 0
                · rw [if_pos h0] at hsome
                  exact ⟨by omega, (Option.some.inj hsome).symm⟩
                · rw [if_neg h0] at hsome
                  cases hsome
              rcases hi0 with ⟨rfl, rfl⟩
              exact ⟨(hmem timer).trans hfires, hnodup⟩

/-- A timer that is not pending does not fire. -/
theorem agenda_silent (hrun : Run AgendaStep a ops b) (hdue : a.due timer = none)
    (hops : ∀ op ∈ ops, ∀ e, op ≠ TimerOp.sleep timer e) :
    b.due timer = none ∧ ∀ woken ∈ ticks ops, timer ∉ woken := by
  induction hrun with
  | nil => exact ⟨hdue, by simp [ticks]⟩
  | @snoc ops op c d hrun hstep ih =>
      rcases ih (fun op' hop => hops op' (by simp [hop])) with ⟨hd, hwoken⟩
      have hop := hops op (by simp)
      cases op with
      | sleep t x =>
          have hne : timer ≠ t := fun hc => hop x (by rw [hc])
          rcases hstep with ⟨_, _, rfl⟩
          simpa [ticks_snoc, TimerOp.woken, hne] using ⟨hd, hwoken⟩
      | del t =>
          have hdc : d = _ := hstep
          subst hdc
          by_cases hne : timer = t
          · simpa [ticks_snoc, TimerOp.woken, hne] using hne ▸ hwoken
          · simpa [ticks_snoc, TimerOp.woken, hne] using ⟨hd, hwoken⟩
      | kill p =>
          have hdc : d = c := hstep
          subst hdc
          simpa [ticks_snoc, TimerOp.woken] using ⟨hd, hwoken⟩
      | other =>
          have hdc : d = c := hstep
          subst hdc
          simpa [ticks_snoc, TimerOp.woken] using ⟨hd, hwoken⟩
      | tick woken =>
          rcases hstep with ⟨_, hmem, rfl⟩
          have hsilent : timer ∉ woken := by
            rw [hmem, hd]
            simp
          refine ⟨by simp [hd], ?_⟩
          intro w hw
          rw [ticks_snoc, List.mem_append] at hw
          rcases hw with hw | hw
          · exact hwoken w hw
          · have hww : w = woken := by
              simpa [TimerOp.woken] using hw
            exact hww ▸ hsilent

/-! ## The timer list as a system -/

/-- The timer list and the machine whose processes it wakes. -/
structure TimerSys (Q : Type) where
  timers : TimerList
  machine : Machine Q

/-- The timer is linked into `timer_list`. -/
def Linked (l : TimerList) (timer : Nat) : Prop :=
  ∃ xs, Ring l.link none xs ∧ some timer ∈ xs

variable {Q : Type}

/-- The first half of `do_sleep`: the current process goes to sleep with a new timer. -/
def startSleep (bound : Nat) (s : TimerSys Q) (timer time : Nat) : Outcome (TimerSys Q) := do
  let l := timerInit s.timers timer s.machine.current time
  let m := s.machine.setProc s.machine.current
    { s.machine.proc s.machine.current with state := ProcState.sleeping, waitState := wtTimer }
  let l ← addTimer bound l timer
  pure { timers := l, machine := m }

/-- One step of the machine, as far as the timer list is concerned. A sleep uses a timer that is not
linked; a timer that is deleted is linked, or its node points to itself. The last case is anything
else that happens: it leaves the list alone, and the state of the processes that have a timer. -/
def TimerStep (cls : SchedClass Q) (s : TimerSys Q) (op : TimerOp) (t : TimerSys Q) : Prop :=
  match op with
  | TimerOp.sleep timer time =>
      (0 < time ∧ time < 2 ^ 32 ∧ ¬ Linked s.timers timer) ∧
        Returns (fun bound => startSleep bound s timer time) t
  | TimerOp.del timer =>
      (Linked s.timers timer ∨ listEmpty s.timers.link (some timer)) ∧
        delTimer s.timers timer = done t.timers ∧ t.machine = s.machine
  | TimerOp.tick woken =>
      Returns (fun bound => runTimerList bound cls s.timers s.machine) (woken, t.timers, t.machine)
  | TimerOp.kill proc =>
      t.timers = s.timers ∧ ∃ r, killProc cls s.machine proc = done (r, t.machine)
  | TimerOp.other =>
      t.timers = s.timers ∧ ∀ timer, Linked s.timers timer →
        (t.machine.proc (s.timers.proc timer)).state =
            (s.machine.proc (s.timers.proc timer)).state ∧
          (t.machine.proc (s.timers.proc timer)).waitState =
            (s.machine.proc (s.timers.proc timer)).waitState

/-- The list is the delta queue of the agenda: the sum of the differences up to a timer is the time
that is left for it, the first difference is positive, and the processes wait for their timers or
were woken early. -/
structure Tracks (s : TimerSys Q) (a : Agenda) (q : List (Nat × Nat)) : Prop where
  rep : Rep s.timers q
  live : Live q
  deadlines : ∀ timer d, (timer, d) ∈ due a.now q ↔ a.due timer = some d
  bounded : ∀ x ∈ due a.now q, x.2 < a.now + 2 ^ 32
  sleeper : ∀ x ∈ q, Sleeper (s.machine.proc (s.timers.proc x.1))

variable {cls : SchedClass Q} {s t : TimerSys Q} {q : List (Nat × Nat)}

theorem Tracks.linked_iff (h : Tracks s a q) (timer : Nat) :
    Linked s.timers timer ↔ timer ∈ keys q := by
  constructor
  · rintro ⟨xs, r, hx⟩
    exact mem_nodes.1 ((r.mem_iff h.rep.ring _).1 hx)
  · intro ht
    exact ⟨_, h.rep.ring, mem_nodes.2 ht⟩

theorem Tracks.due_eq_none (h : Tracks s a q) (timer : Nat) :
    a.due timer = none ↔ timer ∉ keys q := by
  constructor
  · intro hnone ht
    rcases (exists_mem_due ht : ∃ d, (timer, d) ∈ due a.now q) with ⟨d, hd⟩
    rw [(h.deadlines timer d).1 hd] at hnone
    cases hnone
  · intro ht
    cases hd : a.due timer with
    | none => rfl
    | some d => exact absurd (mem_keys_of_mem_due ((h.deadlines timer d).2 hd)) ht

theorem Tracks.sleep (h : Tracks s a q) (he : 0 < e) (hlt : e < 2 ^ 32)
    (hfree : ¬ Linked s.timers timer) :
    ∃ t, Returns (fun bound => startSleep bound s timer e) t ∧
      Tracks t ⟨a.now, Function.update a.due timer (some (a.now + e))⟩ (place timer e q) ∧
      ∀ t', Placed s.timers q t' → Placed t.timers (place timer e q) t' := by
  have ht : timer ∉ keys q := fun hc => hfree ((h.linked_iff timer).2 hc)
  let l := timerInit s.timers timer s.machine.current e
  -- Initialising the new timer does not disturb the list.
  have hl : Rep l q := by
    refine ⟨ring_listInit_of_not_mem h.rep.ring ?_, ?_⟩
    · simp only [List.mem_cons, reduceCtorEq, false_or, mem_nodes]
      exact ht
    · intro x hx
      have hne : x.1 ≠ timer := fun hc => ht (hc ▸ List.mem_map_of_mem hx)
      simp [l, timerInit, hne, h.rep.expires x hx]
  have hexp : l.expires timer = e := by
    simp [l, timerInit]
  have hempty : listEmpty l.link (some timer) := listEmpty_listInit _ _
  rcases addTimer_spec hl ht (by rw [hexp]; exact he) hempty with
    ⟨l', ⟨bound, hadd⟩, hproc, hrep, hplaced⟩
  rw [hexp] at hrep hplaced
  have hinit : ∀ t', Placed s.timers q t' → Placed l q t' := by
    rintro t' (hq | hring)
    · exact Or.inl hq
    · by_cases htt : t' = timer
      · subst htt
        exact Or.inr (ring_listInit _ _)
      · refine Or.inr (ring_listInit_of_not_mem hring ?_)
        simpa using Ne.symm htt
  let m := s.machine.setProc s.machine.current
    { s.machine.proc s.machine.current with state := ProcState.sleeping, waitState := wtTimer }
  have hsleeper : ∀ p, Sleeper (s.machine.proc p) ∨ p = s.machine.current → Sleeper (m.proc p) := by
    intro p hp
    by_cases hc : p = s.machine.current
    · exact Or.inl (by simp [m, Machine.setProc, hc])
    · have hp' := hp.resolve_right hc
      simpa [m, Machine.setProc, hc] using hp'
  refine ⟨⟨l', m⟩, ⟨bound, fun fuel hfuel => ?_⟩, ⟨hrep, live_place he h.live, ?_, ?_, ?_⟩,
    fun t' ht' => hplaced t' (hinit t' ht')⟩
  · simp only [startSleep, l, hadd fuel hfuel, bind_done, pure_eq_done]
    rfl
  · intro x d
    change (x, d) ∈ due a.now _ ↔ Function.update a.due timer _ x = _
    rw [mem_due_place]
    by_cases hx : x = timer
    · subst hx
      have hnot : (x, d) ∉ due a.now q := fun hc => ht (mem_keys_of_mem_due hc)
      simp [hnot, eq_comm]
    · simp [hx, h.deadlines]
  · intro x hx
    rcases mem_due_place.1 hx with rfl | hx
    · change a.now + e < a.now + 2 ^ 32
      omega
    · exact h.bounded x hx
  · intro x hx
    have hkey : x.1 ∈ timer :: keys q :=
      perm_keys_place.mem_iff.1 (List.mem_map_of_mem hx)
    change Sleeper (m.proc (l'.proc x.1))
    rw [hproc]
    by_cases hxt : x.1 = timer
    · refine hsleeper _ (Or.inr ?_)
      simp [l, timerInit, hxt]
    · have hxq : x.1 ∈ keys q := by
        simpa [hxt] using hkey
      rcases List.mem_map.1 hxq with ⟨y, hy, hyx⟩
      refine hsleeper _ (Or.inl ?_)
      have hsame : l.proc x.1 = s.timers.proc y.1 := by
        simp [l, timerInit, hxt, hyx]
      rw [hsame]
      exact h.sleeper y hy

theorem Tracks.del (h : Tracks s a q)
    (hlinked : Linked s.timers timer ∨ listEmpty s.timers.link (some timer)) :
    ∃ l, delTimer s.timers timer = done l ∧
      Tracks ⟨l, s.machine⟩ ⟨a.now, Function.update a.due timer none⟩ (remove timer q) ∧
      l.proc = s.timers.proc ∧ ∀ t', Placed s.timers q t' → Placed l (remove timer q) t' := by
  have hdue : ∀ x d, (x, d) ∈ due a.now (remove timer q) ↔
      Function.update a.due timer none x = some d := by
    intro x d
    rw [mem_due_remove h.rep.nodup]
    by_cases hx : x = timer
    · simp [hx]
    · simp [hx, h.deadlines]
  have hkeys : ∀ x ∈ remove timer q, x.1 ∈ keys q := by
    intro x hx
    have hmem : x.1 ∈ keys (remove timer q) := List.mem_map_of_mem hx
    rcases (exists_mem_due hmem : ∃ d, (x.1, d) ∈ due a.now _) with ⟨d, hd⟩
    have hold : (x.1, d) ∈ due a.now q := ((mem_due_remove h.rep.nodup).1 hd).1
    exact mem_keys_of_mem_due (x := (x.1, d)) hold
  have hbounded : ∀ x ∈ due a.now (remove timer q), x.2 < a.now + 2 ^ 32 := fun x hx =>
    h.bounded x ((mem_due_remove h.rep.nodup).1 hx).1
  have hrest : ∀ l, delTimer s.timers timer = done l → l.proc = s.timers.proc →
      Rep l (remove timer q) →
      Tracks ⟨l, s.machine⟩ ⟨a.now, Function.update a.due timer none⟩ (remove timer q) := by
    intro l _ hproc hrep
    refine ⟨hrep, live_remove h.live, hdue, hbounded, ?_⟩
    intro x hx
    rcases List.mem_map.1 (hkeys x hx) with ⟨y, hy, hyx⟩
    change Sleeper (s.machine.proc (l.proc x.1))
    rw [hproc, ← hyx]
    exact h.sleeper y hy
  by_cases ht : timer ∈ keys q
  · rcases List.mem_map.1 ht with ⟨x, hx, rfl⟩
    rcases List.append_of_mem hx with ⟨q1, q2, rfl⟩
    have hnd := h.rep.nodup
    simp only [keys_append, keys_cons, List.nodup_append, List.nodup_cons] at hnd
    have hq1 : x.1 ∉ keys q1 := fun hc => hnd.2.2 _ hc _ (by simp) rfl
    have hsum : x.2 ≠ 0 → ∀ y ∈ q2.head?, y.2 + x.2 < 2 ^ 32 := by
      intro _ y hy
      cases q2 with
      | nil => cases hy
      | cons z q2 =>
          have hzy : z = y := by
            simpa using hy
          subst hzy
          exact add_le_of_due h.bounded
    rcases delTimer_spec h.rep hsum with ⟨l, hdel, hproc, hrep, hplaced⟩
    rw [← remove_append hq1] at hrep hplaced
    exact ⟨l, hdel, hrest l hdel hproc hrep, hproc, hplaced⟩
  · -- The timer is not linked: nothing happens.
    have hempty := hlinked.resolve_left fun hc => ht ((h.linked_iff timer).1 hc)
    have hdel : delTimer s.timers timer = done s.timers := by
      simp [delTimer, hempty]
    refine ⟨s.timers, hdel, hrest _ hdel rfl ?_, rfl, ?_⟩
    · rw [remove_of_not_mem ht]
      exact h.rep
    · rw [remove_of_not_mem ht]
      exact fun _ ht' => ht'

theorem Tracks.tick (cls : SchedClass Q) (h : Tracks s a q) :
    ∃ woken l m, Returns (fun bound => runTimerList bound cls s.timers s.machine) (woken, l, m) ∧
      woken.Nodup ∧ (∀ t, t ∈ woken ↔ a.due t = some (a.now + 1)) ∧
      Tracks ⟨l, m⟩ ⟨a.now + 1, fun t => if a.due t = some (a.now + 1) then none else a.due t⟩
        (pending (lower 1 q)) ∧
      (l.proc = s.timers.proc ∧ (∀ x ∈ keys (pending (lower 1 q)), x ∈ keys q) ∧
        ∀ t', Placed s.timers q t' → Placed l (pending (lower 1 q)) t') ∧
      ∃ ps m1, (∀ p ∈ ps, ∃ x ∈ q, p = s.timers.proc x.1) ∧ Wakes cls s.machine ps m1 ∧
        m = schedClassProcTick cls m1 m1.current := by
  rcases runTimerList_spec cls h.rep h.live h.sleeper with
    ⟨l, m, hret, hproc, hrep, hm, ⟨m1, hwakes, hm1⟩, hplaced⟩
  have hdue : due (a.now + 1) (lower 1 q) = due a.now q := h.live.due_tick
  have hsub : ∀ x, x ∈ keys (expired (lower 1 q)) ∨ x ∈ keys (pending (lower 1 q)) → x ∈ keys q := by
    intro x hx
    rw [← keys_lower (d := 1), ← @List.takeWhile_append_dropWhile _ (fun y => y.2 == 0) (lower 1 q),
      keys_append]
    exact List.mem_append.2 hx
  refine ⟨_, l, m, hret, ?_, ?_, ⟨hrep, live_pending, ?_, ?_, ?_⟩,
    ⟨hproc, fun x hx => hsub x (Or.inr hx), hplaced⟩, _, m1, fun p hp => ?_, hwakes, hm1⟩
  · have hnd : (keys (lower 1 q)).Nodup := by
      rw [keys_lower]
      exact h.rep.nodup
    exact hnd.sublist ((List.takeWhile_sublist _).map _)
  · intro t
    rw [@mem_keys_expired _ (a.now + 1), hdue, h.deadlines]
  · intro t d
    change (t, d) ∈ due (a.now + 1) _ ↔ (if a.due t = some (a.now + 1) then none else a.due t) = _
    rw [mem_due_pending, hdue, h.deadlines]
    by_cases hd : a.due t = some (a.now + 1)
    · rw [if_pos hd, hd]
      simp only [Option.some.injEq, reduceCtorEq, iff_false, not_and, not_not]
      exact fun hc => hc.symm
    · rw [if_neg hd]
      constructor
      · exact fun hc => hc.1
      · intro hc
        exact ⟨hc, fun hcd => hd (by rw [hc]; exact congrArg some hcd)⟩
  · intro x hx
    rw [mem_due_pending, hdue] at hx
    have := h.bounded x hx.1
    change x.2 < a.now + 1 + 2 ^ 32
    omega
  · intro x hx
    have hxq : x.1 ∈ keys q := hsub x.1 (Or.inr (List.mem_map_of_mem hx))
    rcases List.mem_map.1 hxq with ⟨y, hy, hyx⟩
    change Sleeper (m.proc (l.proc x.1))
    rw [hproc, ← hyx]
    exact hm.sleeper (h.sleeper y hy)
  · rcases List.mem_map.1 hp with ⟨x, hx, rfl⟩
    rcases List.mem_map.1 (hsub x (Or.inl hx)) with ⟨y, hy, rfl⟩
    exact ⟨y, hy, rfl⟩

/-- `do_kill` leaves sleepers sleepers: the one it wakes early becomes runnable. -/
theorem killProc_sleeper {m m' : Machine Q} {p : Nat} {r : Bool}
    (hkill : killProc cls m p = done (r, m')) (x : Nat) (hx : Sleeper (m.proc x)) :
    Sleeper (m'.proc x) := by
  have hx1 : Sleeper ((m.setExiting p).proc x) := by
    unfold Sleeper
    rw [(m.setExiting_state p x).1, (m.setExiting_state p x).2]
    exact hx
  rcases killProc_cases hkill with rfl | rfl | ⟨_, hwake⟩
  · exact hx
  · exact hx1
  · rcases wakeupProc_spec cls (wakeupProc_not_zombie hwake) with
      ⟨m3, hm3, _, _, hstate, hwait, hsame, hothers⟩
    rw [hwake] at hm3
    cases hm3
    by_cases hxp : x = p
    · subst hxp
      by_cases hrunnable : ((m.setExiting x).proc x).state = ProcState.runnable
      · rw [hsame hrunnable]
        exact hx1
      · exact Or.inr ⟨hstate, hwait hrunnable⟩
    · unfold Sleeper
      rw [(hothers x hxp).1, (hothers x hxp).2]
      exact hx1

/-- Every step of the timer list is a step of the agenda. -/
theorem Tracks.step {op : TimerOp} (h : Tracks s a q) (hstep : TimerStep cls s op t) :
    ∃ b q', AgendaStep a op b ∧ Tracks t b q' := by
  cases op with
  | sleep timer time =>
      rcases hstep with ⟨⟨he, hlt, hfree⟩, hret⟩
      rcases h.sleep he hlt hfree with ⟨t', hret', htracks, _⟩
      rw [hret.unique hret']
      have hnone : a.due timer = none :=
        (h.due_eq_none timer).2 fun hc => hfree ((h.linked_iff timer).2 hc)
      exact ⟨_, _, ⟨he, hnone, rfl⟩, htracks⟩
  | del timer =>
      rcases hstep with ⟨hlinked, hdel, hm⟩
      rcases h.del hlinked with ⟨l, hdel', htracks, _⟩
      rw [hdel] at hdel'
      have hl : t.timers = l := done.inj hdel'
      rw [← hl, ← hm] at htracks
      exact ⟨_, _, rfl, htracks⟩
  | tick woken =>
      rcases h.tick cls with ⟨woken', l, m, hret, hnodup, hmem, htracks, _⟩
      have heq : (woken, t.timers, t.machine) = (woken', l, m) := Returns.unique hstep hret
      have hw : woken = woken' := congrArg Prod.fst heq
      have hl : t.timers = l := congrArg (fun x => x.2.1) heq
      have hm : t.machine = m := congrArg (fun x => x.2.2) heq
      subst hw
      rw [← hl, ← hm] at htracks
      exact ⟨_, _, ⟨hnodup, hmem, rfl⟩, htracks⟩
  | kill p =>
      rcases hstep with ⟨hl, r, hkill⟩
      refine ⟨a, q, rfl, ?_, h.live, h.deadlines, h.bounded, ?_⟩
      · rw [hl]
        exact h.rep
      · intro x hx
        rw [hl]
        exact killProc_sleeper hkill _ (h.sleeper x hx)
  | other =>
      rcases hstep with ⟨hl, hothers⟩
      refine ⟨a, q, rfl, ?_, h.live, h.deadlines, h.bounded, ?_⟩
      · rw [hl]
        exact h.rep
      · intro x hx
        have hlinked : Linked s.timers x.1 := (h.linked_iff x.1).2 (List.mem_map_of_mem hx)
        rw [hl]
        unfold Sleeper
        rw [(hothers x.1 hlinked).1, (hothers x.1 hlinked).2]
        exact h.sleeper x hx

/-! ## The timer list keeps time -/

/-- No assertion fails, nothing wraps and every loop ends in the calls that the timer list takes
next: a sleep with a free timer, a deletion, a tick. -/
def NeverStuck (cls : SchedClass Q) (s : TimerSys Q) : Prop :=
  (∀ timer time, 0 < time → time < 2 ^ 32 → ¬ Linked s.timers timer →
    ∃ t, Returns (fun bound => startSleep bound s timer time) t) ∧
  (∀ timer, Linked s.timers timer ∨ listEmpty s.timers.link (some timer) →
    ∃ l, delTimer s.timers timer = done l) ∧
  ∃ r, Returns (fun bound => runTimerList bound cls s.timers s.machine) r

/-- The state after `sched_init`: the timer list is empty. -/
def timerStart (l : TimerList) (m : Machine Q) : TimerSys Q :=
  { timers := { l with link := listInit l.link none }, machine := m }

theorem tracks_timerStart (l : TimerList) (m : Machine Q) :
    Tracks (timerStart l m) ⟨0, fun _ => none⟩ [] :=
  ⟨⟨ring_listInit _ _, by simp⟩, by simp [Live], by simp, by simp, by simp⟩

/-- A machine with the stride class, on which process 1 runs. -/
def runningMachine : Machine RunQueue :=
  { proc := fun _ => { allocProc 0 1 with state := ProcState.runnable }
    current := 1
    idleproc := 0
    rq := { pool := SkewHeap.nil, procNum := 0, maxTimeSlice := maxTimeSlice } }

/-- No timer on this machine. -/
def noTimers : TimerList :=
  { link := { next := fun _ => none, prev := fun _ => none }
    expires := fun _ => 0
    proc := fun _ => 0 }

/-- Process 1 has gone to sleep for one tick. -/
def oneAsleep : TimerSys RunQueue :=
  match startSleep 2 (timerStart noTimers runningMachine) 7 1 with
  | done s => s
  | _ => timerStart noTimers runningMachine

/-- The tick after that. -/
def oneAwake : TimerSys RunQueue :=
  match runTimerList 2 defaultSchedClass oneAsleep.timers oneAsleep.machine with
  | done (_, l, m) => { timers := l, machine := m }
  | _ => oneAsleep

end TriOS
