import TriOS.Sync.Wait

/-!
# sem.c — semaphores

`down` is cut at its call of `schedule`: `downStart` is the code before it, `downFinish` the code
after it, when the process has been switched to again. Interrupts are off in each part, and the
kernel is not preempted, so the parts are the atomic steps of a semaphore. The value is an `int`.
-/

namespace TriOS

open CircularList Outcome

/-- The values of all semaphores, their wait queues, and the machine. A semaphore and its wait queue
have the same name. -/
structure Sync (Q : Type) where
  value : Nat → Int
  waits : WaitTable
  machine : Machine Q

/-- The largest `int`. -/
def intMax : Int := 2147483647

/-- The `int` that the machine stores for `x`. -/
def toInt (x : Int) : Int :=
  x.bmod (2 ^ 32)

variable {Q : Type}

/-- `sem_init` -/
def semInit (s : Sync Q) (sem : Nat) (value : Int) : Sync Q :=
  { s with value := Function.update s.value sem value, waits := waitQueueInit s.waits sem }

/-- `__up` -/
def upState (cls : SchedClass Q) (s : Sync Q) (sem : Nat) (waitState : UInt32) :
    Outcome (Sync Q) :=
  match waitQueueFirst s.waits sem with
  | none => pure { s with value := Function.update s.value sem (toInt (s.value sem + 1)) }
  | some w => do
      assert ((s.machine.proc (s.waits.wait w).proc).waitState = waitState)
      let (waits, machine) ← wakeupWait cls s.waits s.machine sem w waitState true
      pure { s with waits := waits, machine := machine }

/-- `__down` up to its call of `schedule`. The result says whether the process has to wait. -/
def downStart (s : Sync Q) (sem w : Nat) (waitState : UInt32) : Outcome (Bool × Sync Q) :=
  if s.value sem > 0 then
    pure (false, { s with value := Function.update s.value sem (toInt (s.value sem - 1)) })
  else do
    let (waits, machine) ← waitCurrentSet s.waits s.machine sem w waitState
    pure (true, { s with waits := waits, machine := machine })

/-- `__down` after its call of `schedule`, with the flags that it returns. -/
def downFinish (s : Sync Q) (sem w : Nat) (waitState : UInt32) : Outcome (UInt32 × Sync Q) := do
  let waits ← waitCurrentDel s.waits sem w
  let s := { s with waits := waits }
  if (waits.wait w).wakeupFlags ≠ waitState then
    pure ((waits.wait w).wakeupFlags, s)
  else
    pure (0, s)

/-- `up` -/
def up (cls : SchedClass Q) (s : Sync Q) (sem : Nat) : Outcome (Sync Q) :=
  upState cls s sem wtKsem

/-- `down` up to the call of `schedule`. -/
def down (s : Sync Q) (sem w : Nat) : Outcome (Bool × Sync Q) :=
  downStart s sem w wtKsem

/-- `down` after the call of `schedule`. -/
def downResume (s : Sync Q) (sem w : Nat) : Outcome (Sync Q) := do
  let (flags, s) ← downFinish s sem w wtKsem
  assert (flags = 0)
  pure s

/-- `try_down` -/
def tryDown (s : Sync Q) (sem : Nat) : Bool × Sync Q :=
  if s.value sem > 0 then
    (true, { s with value := Function.update s.value sem (toInt (s.value sem - 1)) })
  else (false, s)

theorem toInt_eq {x : Int} (h0 : 0 ≤ x) (h1 : x ≤ intMax) : toInt x = x := by
  unfold intMax at h1
  unfold toInt
  rw [Int.bmod_eq_of_le] <;> omega

/-! ## The processes inside `down` -/

/-- `inDown p = some (sem, w)` means that `p` is in the middle of `down(sem)` with the wait `w`;
`queue sem` are the waits in the queue of `sem`. A process in the middle of `down` is either asleep
in the queue, or an `up` has taken it out and made it runnable. -/
structure Waiting (s : Sync Q) (inDown : Nat → Option (Nat × Nat)) (queue : Nat → List Nat) :
    Prop where
  ring : ∀ sem, Ring s.waits.link (WaitNode.head sem) ((queue sem).map WaitNode.wait)
  queued : ∀ sem w, w ∈ queue sem → inDown (s.waits.wait w).proc = some (sem, w)
  own : ∀ p sem w, inDown p = some (sem, w) → (s.waits.wait w).proc = p
  asleep : ∀ p sem w, inDown p = some (sem, w) → w ∈ queue sem →
    (s.machine.proc p).state = ProcState.sleeping ∧ (s.machine.proc p).waitState = wtKsem ∧
      (s.waits.wait w).waitQueue = sem
  handed : ∀ p sem w, inDown p = some (sem, w) → w ∉ queue sem →
    (s.machine.proc p).state = ProcState.runnable ∧ Ring s.waits.link (WaitNode.wait w) [] ∧
      (s.waits.wait w).wakeupFlags = wtKsem

variable {cls : SchedClass Q} {s : Sync Q} {inDown : Nat → Option (Nat × Nat)}
  {queue : Nat → List Nat} {sem w p : Nat} {ws : List Nat}

/-- A wait is in one queue at most. -/
theorem Waiting.queue_unique (h : Waiting s inDown queue) {sem' : Nat} (hw : w ∈ queue sem)
    (hw' : w ∈ queue sem') : sem = sem' := by
  have h1 := h.queued sem w hw
  rw [h.queued sem' w hw'] at h1
  exact (Prod.mk.inj (Option.some.inj h1)).1.symm

/-- The rings of two wait queues have no common node. -/
theorem Waiting.disjoint (h : Waiting s inDown queue) {sem' : Nat} (hne : sem' ≠ sem) :
    ∀ x ∈ WaitNode.head sem' :: (queue sem').map WaitNode.wait,
      x ∉ WaitNode.head sem :: (queue sem).map WaitNode.wait := by
  intro x hx hc
  simp only [List.mem_cons, List.mem_map] at hx hc
  rcases hx with rfl | ⟨w, hw, rfl⟩
  · rcases hc with hc | ⟨w, _, hc⟩
    · exact hne (WaitNode.head.inj hc)
    · cases hc
  · rcases hc with hc | ⟨w', hw', hc⟩
    · cases hc
    · cases WaitNode.wait.inj hc
      exact hne (h.queue_unique hw hw')

theorem Waiting.first (h : Waiting s inDown queue) (sem : Nat) :
    waitQueueFirst s.waits sem = (queue sem).head? := by
  have hnext := (h.ring sem).next_head
  unfold waitQueueFirst listNext
  rw [hnext]
  cases queue sem with
  | nil => rfl
  | cons w ws => rfl

/-- The values, the processes outside `down` and the current process do not matter. -/
theorem Waiting.congr {s' : Sync Q} (h : Waiting s inDown queue) (hwaits : s'.waits = s.waits)
    (hproc : ∀ p, inDown p ≠ none → (s'.machine.proc p).state = (s.machine.proc p).state ∧
      (s'.machine.proc p).waitState = (s.machine.proc p).waitState) :
    Waiting s' inDown queue := by
  refine ⟨?_, ?_, ?_, ?_, ?_⟩
  all_goals rw [hwaits]
  · exact h.ring
  · exact h.queued
  · exact h.own
  · intro p sem w hp hw
    rcases hproc p (by simp [hp]) with ⟨h1, h2⟩
    rw [h1, h2]
    exact h.asleep p sem w hp hw
  · intro p sem w hp hw
    rw [(hproc p (by simp [hp])).1]
    exact h.handed p sem w hp hw

/-- `do_kill` wakes no process inside `down`: a wait with `WT_KSEM` cannot be interrupted. -/
theorem Waiting.killProc_frame {m : Machine Q} {r : Bool} (h : Waiting s inDown queue)
    (hkill : killProc cls s.machine p = done (r, m)) (q : Nat) (hq : inDown q ≠ none) :
    (m.proc q).state = (s.machine.proc q).state ∧
      (m.proc q).waitState = (s.machine.proc q).waitState := by
  refine TriOS.killProc_frame hkill ?_
  rcases Option.ne_none_iff_exists'.1 hq with ⟨⟨sem, w⟩, hqw⟩
  by_cases hw : w ∈ queue sem
  · left
    unfold interruptible
    rw [(h.asleep q sem w hqw hw).2.1]
    decide
  · exact Or.inr (h.handed q sem w hqw hw).1

/-- `up` with nobody waiting. -/
theorem up_of_nil (cls : SchedClass Q) (h : Waiting s inDown queue) (hq : queue sem = []) :
    up cls s sem =
      done { s with value := Function.update s.value sem (toInt (s.value sem + 1)) } := by
  have hfirst : waitQueueFirst s.waits sem = none := by
    rw [h.first, hq]
    rfl
  simp only [up, upState, hfirst, pure_eq_done]

/-- `up` hands its unit to the first waiter and makes it runnable. -/
theorem up_of_cons (cls : SchedClass Q) (h : Waiting s inDown queue) (hq : queue sem = w :: ws) :
    ∃ s', up cls s sem = done s' ∧ s'.value = s.value ∧
      s'.machine.current = s.machine.current ∧
      (∀ v, (s'.waits.wait v).proc = (s.waits.wait v).proc) ∧
      wakeupProc cls s.machine (s.waits.wait w).proc = done s'.machine ∧
      (s'.machine.proc (s.waits.wait w).proc).state = ProcState.runnable ∧
      Waiting s' inDown (Function.update queue sem ws) := by
  have hw : w ∈ queue sem := by
    simp [hq]
  have hin := h.queued sem w hw
  rcases h.asleep _ sem w hin hw with ⟨hstate, hwait, hown⟩
  have r : Ring s.waits.link (WaitNode.head sem)
      ([] ++ WaitNode.wait w :: ws.map WaitNode.wait) := by
    have := h.ring sem
    rw [hq] at this
    simpa using this
  have hnd := r.nodup
  simp only [List.nil_append, List.nodup_cons] at hnd
  have hfirst : waitQueueFirst s.waits sem = some w := by
    rw [h.first, hq]
    rfl
  have hlinked : ¬ listEmpty s.waits.link (WaitNode.wait w) := by
    rw [listEmpty_iff r.rotate]
    simp
  -- The three calls: the wait leaves the queue, gets its flags, and its process is woken.
  let t1 : WaitTable := { s.waits with link := listDelInit s.waits.link (WaitNode.wait w) }
  let t2 : WaitTable :=
    { t1 with wait := Function.update t1.wait w { t1.wait w with wakeupFlags := wtKsem } }
  have hproc2 : ∀ v, (t2.wait v).proc = (s.waits.wait v).proc := by
    intro v
    by_cases hv : v = w
    · simp [t2, t1, hv]
    · simp [t2, t1, hv]
  have hzombie : (s.machine.proc (s.waits.wait w).proc).state ≠ ProcState.zombie := by
    simp [hstate]
  rcases wakeupProc_spec cls hzombie with ⟨m', hwake, hcur, _, hrun, _, _, hothers⟩
  refine ⟨{ s with waits := t2, machine := m' }, ?_, rfl, hcur, hproc2, hwake, hrun, ?_⟩
  · have hdel : waitQueueDel s.waits sem w = done t1 := by
      have hassert : assert (¬ listEmpty s.waits.link (WaitNode.wait w) ∧
          (s.waits.wait w).waitQueue = sem) = done () := assert_of ⟨hlinked, hown⟩
      simp only [waitQueueDel, hassert, bind_done, pure_eq_done, t1]
    have hassert : assert ((s.machine.proc (s.waits.wait w).proc).waitState = wtKsem) = done () :=
      assert_of hwait
    have hpw : (t2.wait w).proc = (s.waits.wait w).proc := hproc2 w
    have hall : wakeupWait cls s.waits s.machine sem w wtKsem true = done (t2, m') := by
      simp only [wakeupWait, if_true, hdel, bind_done]
      change (wakeupProc cls s.machine (t2.wait w).proc >>= fun m => pure (t2, m)) = _
      rw [hpw, hwake]
      rfl
    simp only [up, upState, hfirst, hassert, hall, bind_done, pure_eq_done]
  · have hnotin : ∀ sem', w ∉ Function.update queue sem ws sem' := by
      intro sem' hc
      by_cases hs : sem' = sem
      · rw [hs, Function.update_self] at hc
        exact hnd.2.1 (List.mem_map_of_mem hc)
      · rw [Function.update_of_ne hs] at hc
        exact hs (h.queue_unique hw hc).symm
    have hsub : ∀ sem' v, v ∈ Function.update queue sem ws sem' → v ∈ queue sem' := by
      intro sem' v hv
      by_cases hs : sem' = sem
      · subst hs
        rw [Function.update_self] at hv
        simp [hq, hv]
      · rwa [Function.update_of_ne hs] at hv
    have hback : ∀ sem' v, v ∈ queue sem' → v ≠ w → v ∈ Function.update queue sem ws sem' := by
      intro sem' v hv hne
      by_cases hs : sem' = sem
      · subst hs
        rw [Function.update_self]
        simpa [hq, hne] using hv
      · rwa [Function.update_of_ne hs]
    have hflags : ∀ v, v ≠ w → t2.wait v = s.waits.wait v := by
      intro v hv
      simp [t2, t1, hv]
    -- The process of another wait is another process.
    have hother : ∀ p sem' v, inDown p = some (sem', v) → v ≠ w → p ≠ (s.waits.wait w).proc := by
      intro p sem' v hp hne hc
      rw [hc, hin] at hp
      exact hne (Prod.mk.inj (Option.some.inj hp)).2.symm
    refine ⟨?_, ?_, ?_, ?_, ?_⟩
    · intro sem'
      by_cases hs : sem' = sem
      · subst hs
        rw [Function.update_self]
        exact ring_listDelInit r
      · rw [Function.update_of_ne hs]
        refine ring_listDelInit_frame r (h.ring sem') ?_
        have hdis := h.disjoint hs
        rw [hq] at hdis
        simpa using hdis
    · intro sem' v hv
      change inDown (t2.wait v).proc = _
      rw [hproc2]
      exact h.queued sem' v (hsub sem' v hv)
    · intro p sem' v hp
      change (t2.wait v).proc = p
      rw [hproc2]
      exact h.own p sem' v hp
    · intro p sem' v hp hv
      have hvw : v ≠ w := fun hc => hnotin sem' (hc ▸ hv)
      rcases hothers p (hother p sem' v hp hvw) with ⟨h1, h2⟩
      change (m'.proc p).state = _ ∧ (m'.proc p).waitState = _ ∧ (t2.wait v).waitQueue = _
      rw [h1, h2, hflags v hvw]
      exact h.asleep p sem' v hp (hsub sem' v hv)
    · intro p sem' v hp hv
      by_cases hvw : v = w
      · subst hvw
        have hpp : (s.waits.wait v).proc = p := h.own p sem' v hp
        change (m'.proc p).state = _ ∧ Ring (listDelInit _ _) _ _ ∧ (t2.wait v).wakeupFlags = _
        rw [← hpp]
        refine ⟨hrun, ring_listInit _ _, ?_⟩
        simp [t2]
      · rcases h.handed p sem' v hp (fun hc => hv (hback sem' v hc hvw)) with ⟨h1, h2, h3⟩
        change (m'.proc p).state = _ ∧ Ring (listDelInit _ _) _ _ ∧ (t2.wait v).wakeupFlags = _
        rw [(hothers p (hother p sem' v hp hvw)).1, hflags v hvw]
        refine ⟨h1, ring_listDelInit_frame r h2 ?_, h3⟩
        -- `v` is not in the queue that `w` is taken out of.
        intro x hx hc
        have hxv : x = WaitNode.wait v := by
          simpa using hx
        subst hxv
        have hmem : v ∈ queue sem := by
          rw [hq]
          simpa using hc
        have hp' := h.queued sem v hmem
        rw [h.own p sem' v hp, hp] at hp'
        have hss : sem' = sem := (Prod.mk.inj (Option.some.inj hp')).1
        subst hss
        exact hv (hback sem' v hmem hvw)

/-- `down` on a positive value. -/
theorem down_of_pos (hv : 0 < s.value sem) :
    down s sem w =
      done (false, { s with value := Function.update s.value sem (toInt (s.value sem - 1)) }) := by
  have hv' : s.value sem > 0 := hv
  simp only [down, downStart, hv', if_true, pure_eq_done]

/-- `down` on a value that is not positive: the current process joins the queue and sleeps. -/
theorem down_of_not_pos (h : Waiting s inDown queue) (hv : ¬ 0 < s.value sem)
    (hcur : inDown s.machine.current = none) (hfresh : ∀ p sem', inDown p ≠ some (sem', w)) :
    ∃ s', down s sem w = done (true, s') ∧ s'.value = s.value ∧
      s'.machine.current = s.machine.current ∧
      (s'.waits.wait w).proc = s.machine.current ∧
      (∀ v, v ≠ w → (s'.waits.wait v).proc = (s.waits.wait v).proc) ∧
      s'.machine = s.machine.setProc s.machine.current { s.machine.proc s.machine.current with
        state := ProcState.sleeping, waitState := wtKsem } ∧
      Waiting s' (Function.update inDown s.machine.current (some (sem, w)))
        (Function.update queue sem (queue sem ++ [w])) := by
  have hv' : ¬ s.value sem > 0 := hv
  have hnotin : ∀ sem', w ∉ queue sem' := fun sem' hc => hfresh _ sem' (h.queued sem' w hc)
  let t1 := waitInit s.waits w s.machine.current
  let m1 := s.machine.setProc s.machine.current
    { s.machine.proc s.machine.current with state := ProcState.sleeping, waitState := wtKsem }
  let t2 : WaitTable :=
    { link := listAddBefore t1.link (WaitNode.head sem) (WaitNode.wait w)
      wait := Function.update t1.wait w { t1.wait w with waitQueue := sem } }
  have hring1 : ∀ sem', Ring t1.link (WaitNode.head sem') ((queue sem').map WaitNode.wait) := by
    intro sem'
    refine ring_listInit_of_not_mem (h.ring sem') ?_
    simp only [List.mem_cons, reduceCtorEq, List.mem_map, WaitNode.wait.injEq, exists_eq_right,
      false_or]
    exact hnotin sem'
  have hw2 : t2.wait w = ⟨s.machine.current, wtInterrupted, sem⟩ := by
    simp [t2, t1, waitInit]
  have hother : ∀ v, v ≠ w → t2.wait v = s.waits.wait v := by
    intro v hv
    simp [t2, t1, waitInit, hv]
  have hself : m1.proc s.machine.current =
      { s.machine.proc s.machine.current with
        state := ProcState.sleeping, waitState := wtKsem } := by
    simp [m1, Machine.setProc]
  have hproc : ∀ q, q ≠ s.machine.current → m1.proc q = s.machine.proc q := by
    intro q hq
    simp [m1, Machine.setProc, hq]
  refine ⟨{ s with waits := t2, machine := m1 }, ?_, rfl, rfl, by rw [hw2], ?_, rfl, ?_⟩
  · have hassert : assert (listEmpty t1.link (WaitNode.wait w)) = done () :=
      assert_of (listEmpty_listInit _ _)
    have hadd : waitQueueAdd t1 sem w = done t2 := by
      simp only [waitQueueAdd, hassert, bind_done, pure_eq_done, t2]
    have hset : waitCurrentSet s.waits s.machine sem w wtKsem = done (t2, m1) := by
      simp only [waitCurrentSet]
      change (waitQueueAdd t1 sem w >>= fun t => pure (t, m1)) = _
      rw [hadd]
      rfl
    simp only [down, downStart, hv', if_false, hset, bind_done, pure_eq_done]
  · intro v hv
    rw [hother v hv]
  · have hne : ∀ p sem' v, p ≠ s.machine.current → inDown p = some (sem', v) → v ≠ w :=
      fun p sem' v _ hp hc => hfresh p sem' (hc ▸ hp)
    have hmem : ∀ sem' v, v ∈ Function.update queue sem (queue sem ++ [w]) sem' ↔
        v ∈ queue sem' ∨ (sem' = sem ∧ v = w) := by
      intro sem' v
      by_cases hs : sem' = sem
      · subst hs
        simp
      · simp [hs]
    refine ⟨?_, ?_, ?_, ?_, ?_⟩
    · intro sem'
      by_cases hs : sem' = sem
      · subst hs
        rw [Function.update_self]
        have r : Ring t1.link (WaitNode.head sem') ((queue sem').map WaitNode.wait ++ []) := by
          simpa using hring1 sem'
        have hfr : WaitNode.wait w ∉
            WaitNode.head sem' :: ((queue sem').map WaitNode.wait ++ []) := by
          simp only [List.append_nil, List.mem_cons, reduceCtorEq, List.mem_map,
            WaitNode.wait.injEq, exists_eq_right, false_or]
          exact hnotin sem'
        have hins := ring_listAddBefore r hfr
        have hmap : (queue sem' ++ [w]).map WaitNode.wait =
            (queue sem').map WaitNode.wait ++ WaitNode.wait w :: [] := by
          simp
        rw [hmap]
        exact hins
      · rw [Function.update_of_ne hs]
        refine ring_listAddBefore_frame (hring1 sem) (hring1 sem') (h.disjoint hs) ?_
        simp only [List.mem_cons, reduceCtorEq, List.mem_map, WaitNode.wait.injEq, exists_eq_right,
          false_or]
        exact hnotin sem'
    · intro sem' v hv
      change Function.update inDown _ _ (t2.wait v).proc = _
      rcases (hmem sem' v).1 hv with hv | ⟨rfl, rfl⟩
      · have hvw : v ≠ w := fun hc => hnotin sem' (hc ▸ hv)
        have hin := h.queued sem' v hv
        have hpc : (s.waits.wait v).proc ≠ s.machine.current := by
          intro hc
          rw [hc, hcur] at hin
          cases hin
        rw [hother v hvw, Function.update_of_ne hpc]
        exact hin
      · rw [hw2]
        simp
    · intro p sem' v hp
      change (t2.wait v).proc = p
      by_cases hpc : p = s.machine.current
      · subst hpc
        rw [Function.update_self] at hp
        cases hp
        rw [hw2]
      · rw [Function.update_of_ne hpc] at hp
        rw [hother v (hne p sem' v hpc hp)]
        exact h.own p sem' v hp
    · intro p sem' v hp hv
      change (m1.proc p).state = _ ∧ (m1.proc p).waitState = _ ∧ (t2.wait v).waitQueue = _
      by_cases hpc : p = s.machine.current
      · subst hpc
        rw [Function.update_self] at hp
        cases hp
        rw [hself, hw2]
        exact ⟨rfl, rfl, rfl⟩
      · rw [Function.update_of_ne hpc] at hp
        have hvw := hne p sem' v hpc hp
        rw [hproc p hpc, hother v hvw]
        exact h.asleep p sem' v hp (((hmem sem' v).1 hv).resolve_right fun hc => hvw hc.2)
    · intro p sem' v hp hv
      by_cases hpc : p = s.machine.current
      · subst hpc
        rw [Function.update_self] at hp
        cases hp
        exact absurd ((hmem sem w).2 (Or.inr ⟨rfl, rfl⟩)) hv
      · rw [Function.update_of_ne hpc] at hp
        have hvw := hne p sem' v hpc hp
        have hvq : v ∉ queue sem' := fun hc => hv ((hmem sem' v).2 (Or.inl hc))
        rcases h.handed p sem' v hp hvq with ⟨h1, h2, h3⟩
        change (m1.proc p).state = _ ∧ Ring t2.link _ _ ∧ (t2.wait v).wakeupFlags = _
        rw [hproc p hpc, hother v hvw]
        refine ⟨h1, ?_, h3⟩
        -- The node of `v` is linked to nothing.
        have h2' : Ring t1.link (WaitNode.wait v) [] :=
          ring_listInit_of_not_mem h2 (by simpa using Ne.symm hvw)
        refine ring_listAddBefore_frame (hring1 sem) h2' ?_ (by simpa using Ne.symm hvw)
        intro x hx hc
        have hxv : x = WaitNode.wait v := by
          simpa using hx
        subst hxv
        have hvs : v ∈ queue sem := by
          simpa using hc
        have hin := h.queued sem v hvs
        rw [h.own p sem' v hp, hp] at hin
        have hss : sem' = sem := (Prod.mk.inj (Option.some.inj hin)).1
        exact hvq (hss ▸ hvs)

/-- A process that was woken finishes `down`: its wait is in no queue, and the flags are those that
`up` left. -/
theorem downResume_of_handed (h : Waiting s inDown queue) (hp : inDown p = some (sem, w))
    (hw : w ∉ queue sem) :
    downResume s sem w = done s ∧ Waiting s (Function.update inDown p none) queue := by
  rcases h.handed p sem w hp hw with ⟨_, hring, hflags⟩
  have hempty : listEmpty s.waits.link (WaitNode.wait w) := (listEmpty_iff hring).2 rfl
  have hin : ¬ waitInQueue s.waits w := not_not.2 hempty
  refine ⟨?_, h.ring, ?_, ?_, ?_, ?_⟩
  · have hdel : waitCurrentDel s.waits sem w = done s.waits := by
      simp only [waitCurrentDel, hin, if_false, pure_eq_done]
    simp [downResume, downFinish, hdel, hflags]
  · intro sem' v hv
    have hin' := h.queued sem' v hv
    have hne : (s.waits.wait v).proc ≠ p := by
      intro hc
      rw [hc, hp] at hin'
      cases hin'
      exact hw hv
    rw [Function.update_of_ne hne]
    exact hin'
  all_goals
    have hsub : ∀ q sem' v, Function.update inDown p none q = some (sem', v) →
        inDown q = some (sem', v) := by
      intro q sem' v hq
      by_cases hqp : q = p
      · rw [hqp, Function.update_self] at hq
        cases hq
      · rwa [Function.update_of_ne hqp] at hq
  · exact fun q sem' v hq => h.own q sem' v (hsub q sem' v hq)
  · exact fun q sem' v hq => h.asleep q sem' v (hsub q sem' v hq)
  · exact fun q sem' v hq => h.handed q sem' v (hsub q sem' v hq)

/-! ## Hand-over -/

/-- `p` is in the middle of `down(sem)`, and an `up` has handed it its unit. -/
def Handed (inDown : Nat → Option (Nat × Nat)) (queue : Nat → List Nat) (sem p : Nat) : Prop :=
  ∃ w, inDown p = some (sem, w) ∧ w ∉ queue sem

/-- `up` hands its unit to the first waiter and to nobody else. -/
theorem Waiting.handed_up (h : Waiting s inDown queue) (hq : queue sem = w :: ws) (sem' p : Nat) :
    Handed inDown (Function.update queue sem ws) sem' p ↔
      Handed inDown queue sem' p ∨ (sem' = sem ∧ p = (s.waits.wait w).proc) := by
  have hnd : (queue sem).Nodup := (List.nodup_cons.1 (h.ring sem).nodup).2.of_map _
  have hin := h.queued sem w (by simp [hq])
  rw [hq] at hnd
  by_cases hne : sem' = sem
  · subst hne
    unfold Handed
    rw [Function.update_self]
    constructor
    · rintro ⟨w', hw', hnot⟩
      by_cases hww : w' = w
      · subst hww
        exact Or.inr ⟨rfl, (h.own p sem' w' hw').symm⟩
      · exact Or.inl ⟨w', hw', by simp [hq, hww, hnot]⟩
    · rintro (⟨w', hw', hnot⟩ | ⟨_, rfl⟩)
      · exact ⟨w', hw', fun hc => hnot (by simp [hq, hc])⟩
      · exact ⟨w, hin, (List.nodup_cons.1 hnd).1⟩
  · unfold Handed
    rw [Function.update_of_ne hne]
    exact ⟨Or.inl, fun hc => hc.resolve_right fun hr => hne hr.1⟩

/-- The waiter that `up` wakes did not have a unit yet. -/
theorem Waiting.not_handed_first (h : Waiting s inDown queue) (hq : queue sem = w :: ws)
    (sem' : Nat) : ¬ Handed inDown queue sem' (s.waits.wait w).proc := by
  rintro ⟨w', hw', hnot⟩
  rw [h.queued sem w (by simp [hq])] at hw'
  cases hw'
  exact hnot (by simp [hq])

/-- A process that joins a queue has no unit, and takes none from the others. -/
theorem handed_down {c : Nat} (hc : inDown c = none) (hfresh : ∀ p sem', inDown p ≠ some (sem', w))
    (sem' p : Nat) :
    Handed (Function.update inDown c (some (sem, w)))
        (Function.update queue sem (queue sem ++ [w])) sem' p ↔ Handed inDown queue sem' p := by
  unfold Handed
  by_cases hp : p = c
  · subst hp
    rw [Function.update_self, hc]
    constructor
    · rintro ⟨w', hw', hnot⟩
      cases hw'
      simp at hnot
    · rintro ⟨w', hw', _⟩
      cases hw'
  · rw [Function.update_of_ne hp]
    refine exists_congr fun w' => and_congr_right fun hw' => not_congr ?_
    have hww : w' ≠ w := fun hcw => hfresh p sem' (hcw ▸ hw')
    by_cases hne : sem' = sem
    · subst hne
      simp [hww]
    · rw [Function.update_of_ne hne]

/-- A process that leaves `down` gives up nothing but its own place. -/
theorem handed_resume {c : Nat} (sem' p : Nat) :
    Handed (Function.update inDown c none) queue sem' p ↔ Handed inDown queue sem' p ∧ p ≠ c := by
  unfold Handed
  by_cases hp : p = c
  · subst hp
    simp
  · simp [hp]

end TriOS
