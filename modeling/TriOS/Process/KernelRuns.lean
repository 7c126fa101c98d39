import TriOS.Process.ForkExit

/-!
# Runs of the kernel

The steps that wake a process up or put it to sleep keep the invariant too, and so does every run in
which no `do_fork` fails after its child is linked.
-/

namespace TriOS

open CircularList DeltaQueue Outcome Transition

variable {k t : Kern} {m : Machine RunQueue} {p q c : Nat} {op : KernOp} {bound : Nat}

/-! ## Timers -/

theorem wakes_frame {ps : List Nat} {m' : Machine RunQueue} (h : Wakes defaultSchedClass m ps m')
    (hq : q ∉ ps) :
    (m'.proc q).state = (m.proc q).state ∧ (m'.proc q).waitState = (m.proc q).waitState := by
  induction h with
  | nil => exact ⟨rfl, rfl⟩
  | cons hp _ ih =>
      rw [List.mem_cons, not_or] at hq
      have h1 := wakeupProc_frame hp hq.1
      have h2 := ih hq.2
      exact ⟨h2.1.trans h1.1, h2.2.trans h1.2⟩

theorem SchedInv.wakes {alive : Finset Nat} {ps : List Nat} {m' : Machine RunQueue}
    (h : SchedInv ⟨m, alive⟩) (hwakes : Wakes defaultSchedClass m ps m')
    (hps : ∀ p ∈ ps, p ∈ alive ∧ (m.proc p).pid ≠ -1 ∧ (m.proc p).state ≠ ProcState.uninit) :
    SchedInv ⟨m', alive⟩ := by
  induction hwakes with
  | nil => exact h
  | cons hp _ ih =>
      rcases hps _ List.mem_cons_self with ⟨halive, hpid, huninit⟩
      have haw := awakes_wakeupProc hp huninit
      refine ih (h.wakeup halive hpid hp) fun q hq => ?_
      rcases hps q (List.mem_cons_of_mem _ hq) with ⟨h1, h2, h3⟩
      exact ⟨h1, by rwa [haw.pid], haw.not_uninit h3⟩

/-- A tick. -/
theorem KernInv.tick {woken : List Nat} {timers : TimerList} (h : KernInv none k)
    (htick : Returns (fun bound => runTimerList bound defaultSchedClass k.timers k.machine)
      (woken, timers, m)) :
    KernInv none { k.setMachine m with timers := timers } ∧ Awakes k.machine m := by
  rcases h.pending with ⟨queue, a, d, hpending⟩
  rcases hpending.tracks.tick defaultSchedClass with ⟨woken', timers', m', hreturns, _, _, htracks,
    ⟨hproc, hkeys, hplaced⟩, ps, m1, hps, hwakes, hm'⟩
  have hsame := htick.unique hreturns
  rcases Prod.mk.inj hsame with ⟨_, hsame⟩
  rcases Prod.mk.inj hsame with ⟨rfl, rfl⟩
  -- The woken processes sleep for a timer.
  have hcall : ∀ p ∈ ps, ∃ timer, (k.ctx p).call = Call.sleep timer := by
    intro p hp
    rcases hps p hp with ⟨x, hx, rfl⟩
    exact ⟨x.1, hpending.timer x.1 (List.mem_map_of_mem hx)⟩
  have hlist : ∀ p ∈ ps, p ∈ k.procList := fun p hp =>
    h.table.listed_of_waits (Or.inr (hcall p hp))
  have hready : ∀ p ∈ ps, p ∈ k.alive ∧ (k.machine.proc p).pid ≠ -1 ∧
      (k.machine.proc p).state ≠ ProcState.uninit := fun p hp =>
    ⟨(h.table.listed p (hlist p hp)).1, h.table.member_pid (Or.inl (hlist p hp)),
      h.table.not_uninit (Or.inl (hlist p hp))⟩
  have haw1 := awakes_wakes hwakes fun p hp => (hready p hp).2.2
  have hproctick : SameProcs m1 m := by
    rw [hm']
    exact sameProcs_procTick _ _
  have haw : Awakes k.machine m := haw1.trans hproctick.awakes
  refine ⟨@KernInv.wake k none h { k.sync with machine := m } timers haw ?_
    ⟨queue, _, _, ⟨?_, htracks, fun x hx => ?_, fun p timer hp => ?_⟩⟩, haw⟩
  · have hs1 := h.sched.wakes hwakes hready
    refine @SchedInv.step ⟨m1, k.alive⟩ ⟨m, k.alive⟩ SchedOp.tick hs1 ?_
    rw [hm']
    rfl
  · refine hpending.waiting.congr rfl fun p hp => ?_
    have hnot : p ∉ ps := by
      intro hn
      rcases inDown_ne_none.1 hp with ⟨sem, w, hdown⟩
      rcases hcall p hn with ⟨timer, hsleep⟩
      exact absurd (hdown.symm.trans hsleep) (by simp)
    have hframe := wakes_frame hwakes hnot
    exact ⟨(hproctick.state p).trans hframe.1, (hproctick.waitState p).trans hframe.2⟩
  · change (k.ctx (timers.proc x)).call = _
    rw [hproc]
    exact hpending.timer x (hkeys x hx)
  · exact hplaced timer (hpending.placed p timer hp)

/-- What `startSleep` does outside the timer list. -/
theorem startSleep_frame {s s' : TimerSys RunQueue} {timer time : Nat}
    (h : Returns (fun bound => startSleep bound s timer time) s') :
    s'.timers.proc = Function.update s.timers.proc timer s.machine.current ∧
      s'.machine = s.machine.setProc s.machine.current { s.machine.proc s.machine.current with
        state := ProcState.sleeping, waitState := wtTimer } := by
  rcases h.exists_eq 0 with ⟨bound, _, h⟩
  simp only [startSleep, bind_eq_done, pure_eq_done, done.injEq] at h
  rcases h with ⟨l, hadd, rfl⟩
  simp only [addTimer, bind_eq_done, assert_eq_done, pure_eq_done, done.injEq, Prod.exists] at hadd
  rcases hadd with ⟨_, _, _, _, _, _, _, rfl⟩
  exact ⟨rfl, rfl⟩

theorem mem_keys_place {timer e x : Nat} {d : List (Nat × Nat)} :
    x ∈ keys (place timer e d) ↔ x = timer ∨ x ∈ keys d := by
  rw [perm_keys_place.mem_iff, List.mem_cons]

/-- The calls after the current process has entered one. -/
theorem enter_call {u : Kern} (hcur : u.current = k.current) (hctx : u.ctx = k.ctx) (call : Call)
    (p : Nat) : ((u.enter call).ctx p).call = if p = k.current then call else (k.ctx p).call := by
  by_cases hp : p = k.current
  · rw [if_pos hp, hp, ← hcur, enter_ctx_current]
  · rw [if_neg hp, enter_ctx_of_ne call (hcur.symm ▸ hp), hctx]

/-- Nobody enters or leaves `down`. -/
theorem inDown_congr (h : ∀ p sem w, (t.ctx p).call = Call.down sem w ↔
    (k.ctx p).call = Call.down sem w) : t.inDown = k.inDown := by
  funext p
  cases hp : k.inDown p with
  | some x =>
      rw [inDown_eq, h, ← inDown_eq, hp]
  | none =>
      by_contra hc
      rcases inDown_ne_none.1 hc with ⟨sem, w, hcall⟩
      rw [h, ← inDown_eq, hp] at hcall
      cases hcall

theorem Kern.InUser.inDown (h : k.InUser) : k.inDown k.current = none := by
  unfold Kern.inDown
  rw [h]

/-- `do_sleep` up to its call of `schedule`. -/
theorem KernInv.sleep {timer time : Nat} {s : TimerSys RunQueue} (h : KernInv none k)
    (huser : k.InUser) (hidle : k.current ≠ k.machine.idleproc)
    (hfresh : ∀ p, (k.ctx p).call ≠ Call.sleep timer) (hpos : time ≠ 0) (hlt : time < 2 ^ 32)
    (hsleep : Returns (fun bound => startSleep bound ⟨k.timers, k.machine⟩ timer time) s) :
    KernInv none (({ k.setMachine s.machine with timers := s.timers } : Kern).enter
      (Call.sleep timer)) := by
  rcases h.pending with ⟨queue, a, d, hpending⟩
  rcases startSleep_frame hsleep with ⟨hproc, hmachine⟩
  have hkeys : timer ∉ keys d := fun hn => hfresh _ (hpending.timer timer hn)
  have hfree : ¬ Linked k.timers timer := fun hn => hkeys ((hpending.tracks.linked_iff timer).1 hn)
  rcases hpending.tracks.sleep (Nat.pos_of_ne_zero hpos) hlt hfree with
    ⟨s', hreturns, htracks, hplaced⟩
  cases hreturns.unique hsleep
  have hcur : Kern.current { k.setMachine s.machine with timers := s.timers } = k.current := by
    change s.machine.current = _
    rw [hmachine]
    rfl
  have hcall := @enter_call k { k.setMachine s.machine with timers := s.timers } hcur rfl
    (Call.sleep timer)
  have hin := @inDown_congr k (({ k.setMachine s.machine with timers := s.timers } : Kern).enter
    (Call.sleep timer)) fun p sem w => by
      rw [hcall p]
      by_cases hp : p = k.current
      · rw [if_pos hp, hp, huser]
        simp
      · rw [if_neg hp]
  refine @KernInv.block k h { k.sync with machine := s.machine } s.timers (Call.sleep timer) wtTimer
    hmachine (fun v hs hw => Or.inl ⟨hs, hw⟩) hidle ⟨queue, _, _, ⟨?_, htracks, fun x hx => ?_,
      fun p timer' hp => ?_⟩⟩
  · refine Eq.mpr (congrArg (fun f => Waiting _ f queue) hin) ?_
    refine hpending.waiting.congr rfl fun p hp => ?_
    have hpc : p ≠ k.current := by
      rintro rfl
      exact hp huser.inDown
    have hsame : s.machine.proc p = k.machine.proc p := by
      rw [hmachine]
      exact setProc_of_ne _ _ hpc
    change (s.machine.proc p).state = _ ∧ (s.machine.proc p).waitState = _
    rw [hsame]
    exact ⟨rfl, rfl⟩
  · refine (hcall (s.timers.proc x)).trans ?_
    rw [hproc]
    rcases mem_keys_place.1 hx with rfl | hxd
    · rw [Function.update_self]
      exact if_pos rfl
    · have hold := hpending.timer x hxd
      have hxt : x ≠ timer := fun hn => hkeys (hn ▸ hxd)
      rw [Function.update_of_ne hxt, if_neg, hold]
      intro hc
      rw [show k.timers.proc x = k.current from hc] at hold
      exact absurd (huser.symm.trans hold) (by simp)
  · have hp' := (hcall p).symm.trans hp
    by_cases hpc : p = k.current
    · rw [if_pos hpc] at hp'
      cases hp'
      exact Or.inl (mem_keys_place.2 (Or.inl rfl))
    · rw [if_neg hpc] at hp'
      exact hplaced timer' (hpending.placed p timer' hp')

/-- The end of `do_sleep`. -/
theorem KernInv.sleepEnd {timer : Nat} {timers : TimerList} (h : KernInv none k)
    (hback : k.Back (Call.sleep timer)) (hdel : delTimer k.timers timer = done timers) :
    KernInv none (({ k with timers := timers } : Kern).enter Call.user) := by
  rcases h.pending with ⟨queue, a, d, hpending⟩
  have hplace : Linked k.timers timer ∨ listEmpty k.timers.link (some timer) := by
    rcases hpending.placed k.current timer hback.1 with hmem | hring
    · exact Or.inl ((hpending.tracks.linked_iff timer).2 hmem)
    · exact Or.inr hring.next_head
  rcases hpending.tracks.del hplace with ⟨l, hdel', htracks, hproc, hplaced⟩
  cases Outcome.done.inj (hdel.symm.trans hdel')
  have hcall := @enter_call k { k with timers := timers } rfl rfl Call.user
  have hin := @inDown_congr k (({ k with timers := timers } : Kern).enter Call.user) fun p sem w => by
    rw [hcall p]
    by_cases hp : p = k.current
    · rw [if_pos hp, hp, hback.1]
      simp
    · rw [if_neg hp]
  have hremove : ∀ x, x ∈ keys (remove timer d) → x ≠ timer ∧ x ∈ keys d := by
    intro x hx
    rcases @exists_mem_due _ 0 _ _ hx with ⟨e, hdue⟩
    rcases (mem_due_remove hpending.tracks.rep.nodup).1 hdue with ⟨hmem, hne⟩
    exact ⟨hne, mem_keys_of_mem_due hmem⟩
  refine @KernInv.leave k h k.sync timers rfl (Or.inr hback.2) ⟨queue, _, _,
    ⟨?_, htracks, fun x hx => ?_, fun p timer' hp => ?_⟩⟩
  · refine Eq.mpr (congrArg (fun f => Waiting _ f queue) hin) ?_
    exact hpending.waiting
  · refine (hcall (timers.proc x)).trans ?_
    rw [hproc]
    rcases hremove x hx with ⟨hne, hx⟩
    have hold := hpending.timer x hx
    rw [if_neg, hold]
    intro hc
    rw [show k.timers.proc x = k.current from hc, hback.1] at hold
    exact hne (Call.sleep.inj hold).symm
  · have hp' := (hcall p).symm.trans hp
    by_cases hpc : p = k.current
    · rw [if_pos hpc] at hp'
      cases hp'
    · rw [if_neg hpc] at hp'
      exact hplaced timer' (hpending.placed p timer' hp')

/-! ## Semaphores -/

theorem KernInv.up {sem : Nat} {sync : Sync RunQueue} (h : KernInv none k)
    (hup : TriOS.up defaultSchedClass k.sync sem = done sync) :
    KernInv none { k with sync := sync } ∧ Awakes k.machine sync.machine := by
  rcases h.pending with ⟨queue, a, d, hpending⟩
  cases hq : queue sem with
  | nil =>
      cases Outcome.done.inj (hup.symm.trans (up_of_nil defaultSchedClass hpending.waiting hq))
      refine ⟨@KernInv.wake k none h _ k.timers (Awakes.refl _) h.sched ⟨queue, a, d, ⟨?_,
        hpending.tracks, hpending.timer, hpending.placed⟩⟩, Awakes.refl _⟩
      exact hpending.waiting.congr rfl fun p _ => ⟨rfl, rfl⟩
  | cons w ws =>
      rcases up_of_cons defaultSchedClass hpending.waiting hq with
        ⟨sync', hup', _, _, _, hwake, _, hwaiting⟩
      cases Outcome.done.inj (hup.symm.trans hup')
      have hdown := inDown_eq.1 (hpending.waiting.queued sem w (by simp [hq]))
      have hlist : (k.sync.waits.wait w).proc ∈ k.procList :=
        h.table.listed_of_waits (Or.inl ⟨sem, w, hdown⟩)
      have haw : Awakes k.machine sync.machine :=
        awakes_wakeupProc hwake (h.table.not_uninit (Or.inl hlist))
      refine ⟨@KernInv.wake k none h sync k.timers haw ?_ ⟨_, a, d, ⟨hwaiting, ?_,
        hpending.timer, hpending.placed⟩⟩, haw⟩
      · exact h.sched.wakeup (h.table.listed _ hlist).1 (h.table.member_pid (Or.inl hlist)) hwake
      · exact hpending.tracks.machine fun x hx => haw.sleeper (hpending.tracks.sleeper x hx)

/-- Only the value of a semaphore changes. -/
theorem KernInv.value (h : KernInv none k) (value : Nat → Int) :
    KernInv none { k with sync := { k.sync with value := value } } := by
  rcases h.pending with ⟨queue, a, d, hpending⟩
  refine @KernInv.wake k none h { k.sync with value := value } k.timers (Awakes.refl _) h.sched
    ⟨queue, a, d, ⟨?_, hpending.tracks, hpending.timer, hpending.placed⟩⟩
  exact hpending.waiting.congr rfl fun p _ => ⟨rfl, rfl⟩

/-- `down` up to its call of `schedule`. -/
theorem KernInv.downBlocked {sem w : Nat} {sync : Sync RunQueue} (h : KernInv none k)
    (huser : k.InUser) (hidle : k.current ≠ k.machine.idleproc)
    (hfresh : ∀ p sem', (k.ctx p).call ≠ Call.down sem' w) (hv : ¬ 0 < k.sync.value sem)
    (hdown : TriOS.down k.sync sem w = done (true, sync)) :
    KernInv none (({ k with sync := sync } : Kern).enter (Call.down sem w)) := by
  rcases h.pending with ⟨queue, a, d, hpending⟩
  rcases down_of_not_pos hpending.waiting hv huser.inDown
    (fun p sem' hp => hfresh p sem' (inDown_eq.1 hp)) with ⟨sync', hdown', _, _, _, _, hmachine, hwaiting⟩
  have hs := Outcome.done.inj (hdown.symm.trans hdown')
  cases (Prod.mk.inj hs).2
  have hcur : Kern.current { k with sync := sync } = k.current := by
    change sync.machine.current = _
    rw [hmachine]
    rfl
  have hcall := @enter_call k { k with sync := sync } hcur rfl (Call.down sem w)
  have hin : (({ k with sync := sync } : Kern).enter (Call.down sem w)).inDown =
      Function.update k.inDown k.current (some (sem, w)) := by
    funext p
    unfold Kern.inDown
    rw [hcall p]
    by_cases hp : p = k.current
    · rw [if_pos hp, hp, Function.update_self]
    · rw [if_neg hp, Function.update_of_ne hp]
  have hnot : ∀ p timer, (k.ctx p).call = Call.sleep timer → p ≠ k.current := by
    rintro p timer hp rfl
    exact absurd (huser.symm.trans hp) (by simp)
  refine @KernInv.block k h sync k.timers (Call.down sem w) wtKsem hmachine
    (fun v hs hw => Or.inl ⟨hs, hw⟩) hidle ⟨Function.update queue sem (queue sem ++ [w]), a, d,
      ⟨?_, ?_, fun x hx => ?_, fun p timer hp => ?_⟩⟩
  · refine Eq.mpr (congrArg (fun f => Waiting _ f _) hin) ?_
    exact hwaiting
  · refine hpending.tracks.machine fun x hx => ?_
    have hne := hnot _ _ (hpending.timer x.1 (List.mem_map_of_mem hx))
    change Sleeper (sync.machine.proc (k.timers.proc x.1))
    rw [hmachine]
    exact Eq.mpr (congrArg Sleeper (setProc_of_ne _ _ hne)) (hpending.tracks.sleeper x hx)
  · have hold := hpending.timer x hx
    exact (hcall _).trans ((if_neg (hnot _ _ hold)).trans hold)
  · have hp' := (hcall p).symm.trans hp
    by_cases hpc : p = k.current
    · rw [if_pos hpc] at hp'
      cases hp'
    · rw [if_neg hpc] at hp'
      exact hpending.placed p timer hp'

theorem KernInv.downResume_eq {sem w : Nat} {sync : Sync RunQueue} (h : KernInv none k)
    {queue : Nat → List Nat} {a : Agenda} {d : List (Nat × Nat)} (hpending : Pending k queue a d)
    (hback : k.Back (Call.down sem w)) (hresume : TriOS.downResume k.sync sem w = done sync) :
    sync = k.sync ∧ Waiting k.sync (Function.update k.inDown k.current none) queue := by
  have hcurrent : k.inDown k.current = some (sem, w) := inDown_eq.2 hback.1
  have hruns := (h.table.runs (Or.inr hback.2)).1
  have hw : w ∉ queue sem := by
    intro hn
    exact absurd (hruns.symm.trans (hpending.waiting.asleep _ _ _ hcurrent hn).1) (by decide)
  rcases downResume_of_handed hpending.waiting hcurrent hw with ⟨hdone, hwaiting⟩
  exact ⟨Outcome.done.inj (hresume.symm.trans hdone), hwaiting⟩

theorem KernInv.downResume_machine {sem w : Nat} {sync : Sync RunQueue} (h : KernInv none k)
    (hback : k.Back (Call.down sem w)) (hresume : TriOS.downResume k.sync sem w = done sync) :
    sync.machine = k.machine := by
  rcases h.pending with ⟨queue, a, d, hpending⟩
  rw [(h.downResume_eq hpending hback hresume).1]
  rfl

/-- `down` after its call of `schedule`. -/
theorem KernInv.downResume {sem w : Nat} {sync : Sync RunQueue} (h : KernInv none k)
    (hback : k.Back (Call.down sem w)) (hresume : TriOS.downResume k.sync sem w = done sync) :
    KernInv none (({ k with sync := sync } : Kern).enter Call.user) := by
  rcases h.pending with ⟨queue, a, d, hpending⟩
  rcases h.downResume_eq hpending hback hresume with ⟨rfl, hwaiting⟩
  have hcall := @enter_call k k rfl rfl Call.user
  have hin : (k.enter Call.user).inDown = Function.update k.inDown k.current none := by
    funext p
    unfold Kern.inDown
    rw [hcall p]
    by_cases hp : p = k.current
    · rw [if_pos hp, hp, Function.update_self]
    · rw [if_neg hp, Function.update_of_ne hp]
  refine @KernInv.leave k h k.sync k.timers rfl (Or.inr hback.2) ⟨queue, a, d,
    ⟨?_, hpending.tracks, fun x hx => ?_, fun p timer hp => ?_⟩⟩
  · refine Eq.mpr (congrArg (fun f => Waiting _ f queue) hin) ?_
    exact hwaiting
  · have hold := hpending.timer x hx
    have hne : k.timers.proc x ≠ k.current := by
      intro hc
      rw [hc] at hold
      exact absurd (hback.1.symm.trans hold) (by simp)
    exact (hcall _).trans ((if_neg hne).trans hold)
  · have hp' := (hcall p).symm.trans hp
    by_cases hpc : p = k.current
    · rw [if_pos hpc] at hp'
      cases hp'
    · rw [if_neg hpc] at hp'
      exact hpending.placed p timer hp'

/-- `do_kill` of a process that `find_proc` has found. -/
theorem KernInv.kill {r : Bool} (h : KernInv none k) (hp : k.Member p)
    (hkill : killProc defaultSchedClass k.machine p = done (r, m)) :
    KernInv none (k.setMachine m) := by
  rcases h.pending with ⟨queue, a, d, hpending⟩
  refine h.wakeMachine (awakes_killProc hkill (h.table.not_uninit hp)) ?_
    (hpending.waiting.killProc_frame hkill)
  have hflag : SchedInv ⟨k.machine.setExiting p, k.alive⟩ := by
    refine h.sched.other fun q => ?_
    by_cases hq : q = p
    · simp [hq]
    · simp [hq]
  have hpid : ((k.machine.setExiting p).proc p).pid ≠ -1 := by
    rw [(awakes_setExiting k.machine p).pid]
    exact h.table.member_pid hp
  rcases killProc_cases hkill with rfl | rfl | ⟨_, hwake⟩
  · exact h.sched
  · exact hflag
  · exact hflag.wakeup (h.table.member_alive h.sched hp) hpid hwake

/-! ## Runs -/

/-- The step is no `do_fork` that fails after its child is linked and awake. -/
def KernOp.CopiesFiles (op : KernOp) : Prop :=
  op ≠ KernOp.forkFinish false

theorem Kern.InUser.calls (h : k.InUser) : (∀ sem w, (k.ctx k.current).call ≠ Call.down sem w) ∧
    ∀ timer, (k.ctx k.current).call ≠ Call.sleep timer := by
  unfold Kern.InUser at h
  rw [h]
  simp

theorem KernInv.returns {f : Nat → Outcome Kern} (h : Returns f t)
    (hdone : ∀ bound, f bound = done t → KernInv none t) : KernInv none t := by
  rcases h.exists_eq 0 with ⟨bound, _, hbound⟩
  exact hdone bound hbound

theorem KernInv.step (h : KernInv none k) (hop : op.CopiesFiles) (hstep : KernStep k op t) :
    KernInv none t := by
  cases op with
  | procInit child stride priority =>
      rcases hstep with ⟨⟨hidle, _, _, hchild⟩, hreturns⟩
      exact KernInv.returns hreturns fun bound hdone => h.makeInit hidle.1 hchild hdone
  | schedule =>
      rcases hstep with ⟨_, m, hs, rfl⟩
      exact h.schedule hs
  | yield =>
      rcases hstep with rfl
      have hsame := sameProcs_setRun k.machine k.current
        { k.machine.runInfo k.current with needResched := true }
      refine h.wakeMachine hsame.awakes ?_ fun p _ => ⟨hsame.state p, hsame.waitState p⟩
      exact h.sched.step (show SchedStep _ SchedOp.yield _ from rfl)
  | setPriority priority =>
      rcases hstep with rfl
      have hsame := sameProcs_setRun k.machine k.current { k.machine.runInfo k.current with
        priority := if priority = 0 then 1 else priority }
      refine h.wakeMachine hsame.awakes ?_ fun p _ => ⟨hsame.state p, hsame.waitState p⟩
      exact h.sched.step (show SchedStep _ (SchedOp.setPriority priority) _ from rfl)
  | tick =>
      rcases hstep with ⟨woken, timers, m, htick, rfl⟩
      exact (h.tick htick).1
  | kill pid =>
      cases hfind : findProc k pid with
      | none =>
          simp only [KernStep, hfind] at hstep
          exact hstep ▸ h
      | some p =>
          simp only [KernStep, hfind] at hstep
          rcases hstep with ⟨r, m, hkill, rfl⟩
          exact h.kill (Or.inl (h.table.findProc hfind).1) hkill
  | wakeup p =>
      rcases hstep with ⟨⟨hlist, hdown⟩, m, hwake, rfl⟩
      refine h.wakeOne (Or.inl hlist) ?_ hwake
      by_contra hc
      rcases inDown_ne_none.1 hc with ⟨sem, w, hcall⟩
      exact hdown sem w hcall
  | forkStart child stride priority =>
      rcases hstep with ⟨⟨_, _, hchild⟩, hfork⟩
      exact h.forkStart hchild hfork
  | forkFail =>
      rcases hstep with ⟨child, ⟨_, hforking⟩, rfl⟩
      exact h.forkFail hforking
  | forkFinish filesOk =>
      rcases hstep with ⟨child, ⟨huser, hforking⟩, hreturns⟩
      refine KernInv.returns hreturns fun bound hdone => ?_
      cases filesOk with
      | false => exact absurd rfl hop
      | true =>
          simp only [TriOS.forkFinish, bind_eq_done, if_true, pure_eq_done, done.injEq] at hdone
          rcases hdone with ⟨k', hlink, rfl⟩
          exact (h.forkLink hforking huser hlink).1
  | exit code =>
      rcases hstep with ⟨hidle, hreturns⟩
      exact KernInv.returns hreturns fun bound hdone => h.doExit hidle.1.calls hdone
  | wait pid result =>
      rcases hstep with ⟨⟨hidle, hne⟩, hreturns⟩
      rcases hreturns.exists_eq 0 with ⟨bound, _, hdone⟩
      exact h.doWait (Or.inl hidle.1) hidle.1.calls hne hdone
  | waitResume result =>
      rcases hstep with ⟨pid, hback, hstep⟩
      have hcalls : (∀ sem w, (k.ctx k.current).call ≠ Call.down sem w) ∧
          ∀ timer, (k.ctx k.current).call ≠ Call.sleep timer := by
        rw [hback.1]
        simp
      by_cases hexiting : (k.machine.proc k.current).exiting = true
      · rw [if_pos hexiting] at hstep
        exact KernInv.returns hstep.2 fun bound hdone => h.doExit hcalls hdone
      · rw [if_neg hexiting] at hstep
        rcases hstep with ⟨r, _, hreturns⟩
        rcases hreturns.exists_eq 0 with ⟨bound, _, hdone⟩
        refine h.doWait (Or.inr hback.2) hcalls ?_ hdone
        intro hc
        have hidle := h.table.idle.2
        rw [← hc, hback.1] at hidle
        cases hidle
  | sleep time =>
      rcases hstep with ⟨⟨hidle, hne⟩, hstep⟩
      by_cases htime : time = 0
      · rw [if_pos htime] at hstep
        exact hstep ▸ h
      · rw [if_neg htime] at hstep
        rcases hstep with ⟨timer, s, hfresh, hlt, hsleep, rfl⟩
        exact h.sleep hidle.1 hne hfresh htime hlt hsleep
  | sleepEnd =>
      rcases hstep with ⟨timer, timers, hback, hdel, rfl⟩
      exact h.sleepEnd hback hdel
  | up sem =>
      rcases hstep with ⟨_, sync, hup, rfl⟩
      exact (h.up hup).1
  | down sem =>
      rcases hstep with ⟨⟨huser, hidle⟩, w, blocked, sync, hfresh, hdown, rfl⟩
      by_cases hv : 0 < k.sync.value sem
      · rcases Prod.mk.inj (Outcome.done.inj (hdown.symm.trans (down_of_pos hv))) with ⟨rfl, rfl⟩
        exact h.value _
      · have hblocked : blocked = true := by
          rcases h.pending with ⟨queue, a, d, hpending⟩
          rcases down_of_not_pos hpending.waiting hv huser.inDown
            (fun p sem' hp => hfresh p sem' (inDown_eq.1 hp)) with ⟨sync', hdown', _⟩
          exact (Prod.mk.inj (Outcome.done.inj (hdown.symm.trans hdown'))).1
        rw [hblocked] at hdown ⊢
        exact h.downBlocked huser (hidle.resolve_right hv) hfresh hv hdown
  | downResume =>
      rcases hstep with ⟨sem, w, sync, hback, hresume, rfl⟩
      exact h.downResume hback hresume
  | tryDown sem =>
      rcases hstep with ⟨_, taken, sync, htry, rfl⟩
      unfold TriOS.tryDown at htry
      by_cases hv : k.sync.value sem > 0
      · rw [if_pos hv] at htry
        cases htry
        exact h.value _
      · rw [if_neg hv] at htry
        cases htry
        exact h

/-- The state before the end of `proc_init`: the idle process runs alone. -/
structure KernStart (k : Kern) : Prop where
  current : k.current = k.machine.idleproc
  alive : k.alive = {k.machine.idleproc}
  lists : k.procList = [] ∧ ∀ i, k.hashList i = []
  init : k.initproc = none
  count : k.nrProcess = 1
  pids : k.lastPid = maxPid ∧ k.nextSafe = maxPid
  ctx : ∀ p, k.ctx p = Context.start
  idle : (k.machine.proc k.machine.idleproc).state = ProcState.runnable ∧
    (k.machine.proc k.machine.idleproc).waitState = 0 ∧
    (k.machine.proc k.machine.idleproc).pid = 0 ∧
    (k.machine.proc k.machine.idleproc).cptr = none
  queue : k.machine.rq.pool = SkewHeap.nil ∧ k.machine.rq.procNum = 0
  timers : Ring k.timers.link none []
  waits : ∀ sem, Ring k.sync.waits.link (WaitNode.head sem) []

theorem KernStart.table (h : KernStart k) : Table k := by
  have hmember : ∀ p, k.Member p ↔ p = k.machine.idleproc := by
    intro p
    unfold Kern.Member
    rw [h.lists.1]
    simp
  refine ⟨?_, fun i => ?_, fun p hp => ?_, ?_, ?_, ⟨h.idle.2.2.1, ?_⟩, fun p hp => ?_,
    fun p hp hm => ?_, fun p _ => h.ctx p, fun p c hc => ?_, fun hr => ?_, ?_, fun i hi => ?_⟩
  · rw [h.lists.1]
    exact List.nodup_nil
  · rw [h.lists.1, h.lists.2]
    rfl
  · rw [h.lists.1] at hp
    cases hp
  · rw [h.count, h.lists.1]
    rfl
  · rw [h.lists.1, h.pids.1]
    exact ⟨by decide, fun pid hp => by cases hp⟩
  · rw [h.ctx]
    rfl
  · rw [(hmember p).1 hp, h.ctx]
    exact ⟨h.idle.1, h.idle.2.1⟩
  · rw [h.alive, Finset.mem_singleton] at hp
    exact absurd ((hmember p).2 hp) hm
  · rw [h.ctx] at hc
    cases hc
  · rw [h.ctx] at hr
    cases hr
  · exact (hmember _).2 h.current
  · rw [h.init] at hi
    cases hi

theorem KernStart.sched (h : KernStart k) : SchedInv ⟨k.machine, k.alive⟩ := by
  have hcur : k.machine.current = k.machine.idleproc := h.current
  have hready : (SchedSys.mk k.machine k.alive).ready = ∅ := by
    rw [← Finset.not_nonempty_iff_eq_empty]
    rintro ⟨p, hp⟩
    rcases SchedSys.mem_ready.1 hp with ⟨halive, _, hidle, _⟩
    rw [h.alive, Finset.mem_singleton] at halive
    exact hidle halive
  have hone : ∀ p ∈ k.alive, p = k.machine.idleproc := by
    intro p hp
    rwa [h.alive, Finset.mem_singleton] at hp
  refine ⟨⟨?_, ?_⟩, ?_, ?_, ?_, ?_, fun p hp _ => ?_, fun p hp q hq _ _ => ?_⟩
  · rw [hready, h.queue.1]
    rfl
  · rw [hready, h.queue.2]
    rfl
  · rw [hcur, h.alive]
    exact Finset.mem_singleton_self _
  · rw [h.alive]
    exact Finset.mem_singleton_self _
  · rw [hcur, h.idle.2.2.1]
    decide
  · rw [h.idle.2.2.1]
    decide
  · rw [hone p hp, h.idle.2.2.1]
    decide
  · rw [hone p hp, hone q hq]

theorem KernStart.inv (h : KernStart k) : KernInv none k := by
  have hin : ∀ p, k.inDown p = none := by
    intro p
    unfold Kern.inDown
    rw [h.ctx]
    rfl
  refine ⟨h.sched, h.table, ⟨fun _ => none, fun _ => [], ⟨fun q hq => ?_, fun q p hp => (by cases hp),
    fun _ => List.nodup_nil, fun q hq => absurd rfl hq⟩, fun _ _ => rfl, fun p => ?_,
    fun q hq => absurd rfl hq⟩, fun _ => [], ⟨0, fun _ => none⟩, [], ⟨?_, ?_, fun x hx => (by cases hx),
    fun p timer hp => ?_⟩⟩
  · rw [h.alive, Finset.mem_singleton] at hq
    rw [hq]
    exact h.idle.2.2.2
  · rw [h.lists.1]
    simp
  · refine ⟨h.waits, fun sem w hw => (by cases hw), fun p sem w hp => ?_, fun p sem w hp => ?_,
      fun p sem w hp => ?_⟩
    all_goals
      rw [hin] at hp
      cases hp
  · exact ⟨⟨h.timers, by simp⟩, by simp [Live], by simp, by simp, by simp⟩
  · rw [h.ctx] at hp
    cases hp

theorem KernInv.run {k0 : Kern} {ops : List KernOp} (h0 : KernStart k0)
    (hrun : Run (Guarded (fun _ op => op.CopiesFiles) KernStep) k0 ops k) : KernInv none k :=
  hrun.invariant (KernInv none) (fun _ _ _ h hs => h.step hs.1 hs.2) h0.inv

/-- In every state that a run reaches in which no `do_fork` fails after it has woken its child, the
run pool holds the allocated processes that are runnable, not idle and not current, each once, and
`proc_num` is their number. -/
theorem run_pool_holds_ready {k0 : Kern} {ops : List KernOp} (h0 : KernStart k0)
    (hrun : Run (Guarded (fun _ op => op.CopiesFiles) KernStep) k0 ops k) :
    Membership ⟨k.machine, k.alive⟩ :=
  (KernInv.run h0 hrun).sched.membership

/-- A machine on which the idle process runs alone. -/
def bootKern : Kern :=
  { sync :=
      { value := fun _ => 1
        waits := { link := { next := id, prev := id }, wait := fun _ => ⟨0, 0, 0⟩ }
        machine :=
          { proc := fun _ => { allocProc 0 1 with state := ProcState.runnable, pid := 0 }
            current := 0
            idleproc := 0
            rq := { pool := SkewHeap.nil, procNum := 0, maxTimeSlice := maxTimeSlice } } }
    timers := noTimers
    alive := {0}
    initproc := none
    procList := []
    hashList := fun _ => []
    nrProcess := 1
    lastPid := maxPid
    nextSafe := maxPid
    ctx := fun _ => Context.start }

theorem kernStart_bootKern : KernStart bootKern :=
  ⟨rfl, rfl, ⟨rfl, fun _ => rfl⟩, rfl, rfl, ⟨rfl, rfl⟩, fun _ => rfl, ⟨rfl, rfl, rfl, rfl⟩,
    ⟨rfl, rfl⟩, ⟨by simp, rfl, rfl⟩, fun _ => ⟨by simp, rfl, rfl⟩⟩

/-- The machine after `proc_init`: the process `init` has the address 1. -/
def initKern : Kern :=
  match makeInit 2 bootKern 1 0 1 with
  | done k => k
  | _ => bootKern

theorem kernStep_procInit : KernStep bootKern (KernOp.procInit 1 0 1) initKern := by
  refine ⟨⟨⟨rfl, rfl⟩, rfl, rfl, by decide⟩, 2, fun bound hbound => ?_⟩
  rcases Nat.exists_eq_add_of_le' hbound with ⟨n, rfl⟩
  rfl

/-- After `proc_init` the pool holds `init` alone. -/
theorem run_pool_holds_ready_initKern : Membership ⟨initKern.machine, initKern.alive⟩ := by
  have hrun : Run (Guarded (fun _ op => op.CopiesFiles) KernStep) bootKern
      [KernOp.procInit 1 0 1] initKern :=
    Run.cons ⟨by simp [KernOp.CopiesFiles], kernStep_procInit⟩ Run.nil
  exact run_pool_holds_ready kernStart_bootKern hrun

end TriOS
