import TriOS.Library.DeltaQueue
import TriOS.Libs.List
import TriOS.Schedule.Sched

/-!
# sched.c — the timer list

`add_timer`, `del_timer` and `run_timer_list` of `kern/schedule/sched.c`, and the specification of
each on the delta queue that the list represents. A timer is the address of its `timer_t`; its list
node is `some timer`, and `none` is `timer_list`. The fields `expires` are `unsigned int`: every
subtraction and addition reports a wrap.
-/

namespace TriOS

open CircularList DeltaQueue Outcome

/-- All `timer_t` of the machine, and `timer_list`. -/
structure TimerList where
  link : Links (Option Nat)
  expires : Nat → Nat
  proc : Nat → Nat

/-- `timer_init` -/
def timerInit (l : TimerList) (timer proc expires : Nat) : TimerList :=
  { link := listInit l.link (some timer)
    expires := Function.update l.expires timer expires
    proc := Function.update l.proc timer proc }

/-- The loop of `add_timer`. It returns the fields `expires` and the place for the timer. -/
def addLoop (link : Links (Option Nat)) (timer : Nat) :
    Nat → (Nat → Nat) → Option Nat → Outcome ((Nat → Nat) × Option Nat)
  | 0, _, _ => fuel
  | bound + 1, expires, le =>
      match le with
      | none => pure (expires, none)
      | some next =>
          if expires timer < expires next then do
            let e ← sub (expires next) (expires timer)
            pure (Function.update expires next e, some next)
          else do
            let e ← sub (expires timer) (expires next)
            addLoop link timer bound (Function.update expires timer e) (listNext link (some next))

/-- `add_timer` -/
def addTimer (bound : Nat) (l : TimerList) (timer : Nat) : Outcome TimerList := do
  assert (l.expires timer > 0)
  assert (listEmpty l.link (some timer))
  let (expires, le) ← addLoop l.link timer bound l.expires (listNext l.link none)
  pure { l with link := listAddBefore l.link le (some timer), expires := expires }

/-- `del_timer` -/
def delTimer (l : TimerList) (timer : Nat) : Outcome TimerList :=
  if ¬ listEmpty l.link (some timer) then do
    let expires ←
      if l.expires timer ≠ 0 then
        match listNext l.link (some timer) with
        | none => pure l.expires
        | some next => do
            let e ← add 32 (l.expires next) (l.expires timer)
            pure (Function.update l.expires next e)
      else pure l.expires
    pure { l with link := listDelInit l.link (some timer), expires := expires }
  else pure l

variable {Q : Type}

/-- The check of `run_timer_list` on a process it wakes: one with wait_state 0 is only warned
about. -/
def checkWaitState (p : Proc) : Outcome Unit :=
  if p.waitState ≠ 0 then assert (interruptible p) else pure ()

/-- The inner loop of `run_timer_list`, at `timer`. The first component lists the timers whose
process is woken, in order. -/
def expireLoop (cls : SchedClass Q) :
    Nat → TimerList → Machine Q → Nat → Outcome (List Nat × TimerList × Machine Q)
  | 0, _, _, _ => fuel
  | bound + 1, l, m, timer =>
      if l.expires timer = 0 then do
        let le := listNext l.link (some timer)
        let proc := l.proc timer
        checkWaitState (m.proc proc)
        let m ← wakeupProc cls m proc
        let l ← delTimer l timer
        match le with
        | none => pure ([timer], l, m)
        | some next => do
            let (woken, l, m) ← expireLoop cls bound l m next
            pure (timer :: woken, l, m)
      else pure ([], l, m)

/-- `run_timer_list` -/
def runTimerList (bound : Nat) (cls : SchedClass Q) (l : TimerList) (m : Machine Q) :
    Outcome (List Nat × TimerList × Machine Q) := do
  let (woken, l, m) ←
    match listNext l.link none with
    | none => pure ([], l, m)
    | some timer => do
        assert (l.expires timer ≠ 0)
        let e ← sub (l.expires timer) 1
        expireLoop cls bound { l with expires := Function.update l.expires timer e } m timer
  pure (woken, l, schedClassProcTick cls m m.current)

/-! ## The queue that a timer list represents -/

/-- The list nodes of the timers of a queue. -/
def nodes (q : List (Nat × Nat)) : List (Option Nat) :=
  (keys q).map some

/-- The timer list holds the entries of `q`, with the differences in `expires`. -/
structure Rep (l : TimerList) (q : List (Nat × Nat)) : Prop where
  ring : Ring l.link none (nodes q)
  expires : ∀ x ∈ q, l.expires x.1 = x.2

/-- The timer is in the queue, or its node is linked to itself. -/
def Placed (l : TimerList) (q : List (Nat × Nat)) (timer : Nat) : Prop :=
  timer ∈ keys q ∨ Ring l.link (some timer) []

variable {l l' : TimerList} {q q1 q2 : List (Nat × Nat)} {timer : Nat}

theorem nodes_append : nodes (q1 ++ q2) = nodes q1 ++ nodes q2 := by
  simp [nodes]

theorem mem_nodes : some timer ∈ nodes q ↔ timer ∈ keys q := by
  simp [nodes]

theorem Rep.nodup (h : Rep l q) : (keys q).Nodup :=
  (List.nodup_cons.1 h.ring.nodup).2.of_map _

/-- A linked node does not point to itself. -/
theorem Rep.listEmpty_iff_not_mem (h : Rep l q) (ht : timer ∈ keys q) :
    ¬ listEmpty l.link (some timer) := by
  rcases List.append_of_mem ht with ⟨us, vs, hkeys⟩
  have r : Ring l.link none (us.map some ++ some timer :: vs.map some) := by
    have := h.ring
    unfold nodes at this
    rw [hkeys] at this
    simpa using this
  rw [listEmpty_iff r.rotate]
  simp

/-- A node that is linked to itself is not in the ring of the queue. -/
theorem apart_nodes {t : Nat} (ht : t ∉ keys q) :
    ∀ x ∈ some t :: ([] : List (Option Nat)), x ∉ none :: nodes q := by
  intro x hx hc
  have hxt : x = some t := by simpa using hx
  subst hxt
  simp only [List.mem_cons, reduceCtorEq, false_or, mem_nodes] at hc
  exact ht hc

/-! ## add_timer -/

/-- The loop stops at the place of the timer and leaves the differences of the longer queue. -/
theorem addLoop_eq {link : Links (Option Nat)} {d rest : List (Nat × Nat)}
    {expires : Nat → Nat} (r : Ring link none (nodes (d ++ rest)))
    (hrest : ∀ x ∈ rest, expires x.1 = x.2) (ht : timer ∉ keys rest) :
    ∃ pre post e expires', rest = pre ++ post ∧
      place timer (expires timer) rest = pre ++ (timer, e) :: lower e post ∧
      (∀ bound, rest.length < bound →
        addLoop link timer bound expires ((nodes rest).headD none) =
          done (expires', (nodes post).headD none)) ∧
      (∀ x ∈ pre ++ (timer, e) :: lower e post, expires' x.1 = x.2) ∧
      ∀ t, t ∉ keys rest → t ≠ timer → expires' t = expires t := by
  induction rest generalizing d expires with
  | nil =>
      refine ⟨[], [], expires timer, expires, rfl, rfl, ?_, ?_, fun t _ _ => rfl⟩
      · intro bound hbound
        cases bound with
        | zero => cases hbound
        | succ bound => rfl
      · simp [lower]
  | cons y rest ih =>
      have hy : expires y.1 = y.2 := hrest y (by simp)
      have hne : y.1 ≠ timer := fun hc => ht (by simp [hc])
      have hnd : (keys (d ++ y :: rest)).Nodup := (List.nodup_cons.1 r.nodup).2.of_map _
      have hyrest : y.1 ∉ keys rest := by
        simp only [keys_append, keys_cons, List.nodup_append, List.nodup_cons] at hnd
        exact hnd.2.1.1
      have hhead : (nodes (y :: rest)).headD none = some y.1 := rfl
      by_cases hlt : expires timer < y.2
      · -- The timer goes in front of `y`, whose difference becomes smaller.
        refine ⟨[], y :: rest, expires timer, Function.update expires y.1 (y.2 - expires timer),
          rfl, ?_, ?_, ?_, ?_⟩
        · simp [place, hlt]
        · intro bound hbound
          cases bound with
          | zero => cases hbound
          | succ bound =>
              simp only [addLoop, hhead, hy, hlt, if_true, sub_of_le hlt.le, bind_done,
                pure_eq_done]
        · intro x hx
          simp only [List.nil_append, lower, List.mem_cons] at hx
          rcases hx with rfl | rfl | hx
          · simp [hne.symm]
          · simp
          · have hxy : x.1 ≠ y.1 := fun hc => hyrest (hc ▸ List.mem_map_of_mem hx)
            simp [hxy, hrest x (by simp [hx])]
        · intro t htk _
          have hty : t ≠ y.1 := fun hc => htk (by simp [hc])
          simp [hty]
      · -- The timer is due after `y`: go on with the time that is left.
        have hle : y.2 ≤ expires timer := not_lt.1 hlt
        have r' : Ring link none (nodes ((d ++ [y]) ++ rest)) := by
          simpa using r
        have hnext : listNext link (some y.1) = (nodes rest).headD none := by
          have r'' : Ring link none (nodes d ++ some y.1 :: nodes rest) := by
            simpa [nodes] using r
          exact r''.next_mem
        have htrest : timer ∉ keys rest := fun hc => ht (by simp [hc])
        have hupd : ∀ x ∈ rest,
            Function.update expires timer (expires timer - y.2) x.1 = x.2 := by
          intro x hx
          have hxt : x.1 ≠ timer := fun hc => htrest (hc ▸ List.mem_map_of_mem hx)
          simp [hxt, hrest x (by simp [hx])]
        rcases ih r' hupd htrest with ⟨pre, post, e, expires', rfl, hins, hloop, hval, hframe⟩
        refine ⟨y :: pre, post, e, expires', rfl, ?_, ?_, ?_, ?_⟩
        · simp only [Function.update_self] at hins
          simp [place, hlt, hins]
        · intro bound hbound
          cases bound with
          | zero => cases hbound
          | succ bound =>
              simp only [addLoop, hhead, hy, hlt, if_false, sub_of_le hle, bind_done, hnext]
              exact hloop bound (Nat.lt_of_succ_lt_succ hbound)
        · intro x hx
          rcases List.mem_cons.1 hx with rfl | hx
          · rw [hframe _ hyrest hne]
            simp [hne, hy]
          · exact hval x hx
        · intro t htk htt
          rw [hframe t (fun hc => htk (List.mem_cons_of_mem _ hc)) htt]
          simp [htt]

theorem addTimer_spec (h : Rep l q) (ht : timer ∉ keys q) (hexp : 0 < l.expires timer)
    (hempty : listEmpty l.link (some timer)) :
    ∃ l', Returns (fun bound => addTimer bound l timer) l' ∧ l'.proc = l.proc ∧
      Rep l' (place timer (l.expires timer) q) ∧
      ∀ t, Placed l q t → Placed l' (place timer (l.expires timer) q) t := by
  have hnext : listNext l.link none = (nodes q).headD none := h.ring.next_head
  rcases @addLoop_eq timer l.link [] q l.expires h.ring h.expires ht with
    ⟨pre, post, e, expires', rfl, hplace, hloop, hval, -⟩
  refine ⟨{ l with
    link := listAddBefore l.link ((nodes post).headD none) (some timer), expires := expires' },
    ⟨(pre ++ post).length + 1, fun bound hbound => ?_⟩, rfl, ⟨?_, ?_⟩, ?_⟩
  · have h1 : assert (l.expires timer > 0) = done () := assert_of hexp
    have h2 : assert (listEmpty l.link (some timer)) = done () := assert_of hempty
    simp only [addTimer, h1, h2, bind_done, hnext, hloop bound hbound, pure_eq_done]
  · rw [hplace]
    have r : Ring l.link none (nodes pre ++ nodes post) := by
      rw [← nodes_append]
      exact h.ring
    have hfresh : some timer ∉ none :: (nodes pre ++ nodes post) := by
      rw [← nodes_append]
      simp only [List.mem_cons, reduceCtorEq, false_or, mem_nodes]
      exact ht
    have hins := ring_listAddBefore r hfresh
    have hnodes : nodes (pre ++ (timer, e) :: lower e post) =
        nodes pre ++ some timer :: nodes post := by
      simp [nodes]
    rw [hnodes]
    exact hins
  · rw [hplace]
    exact hval
  · intro t hplaced
    have hkeys : ∀ x, x ∈ keys (place timer (l.expires timer) (pre ++ post)) ↔
        x ∈ timer :: keys (pre ++ post) := fun x => perm_keys_place.mem_iff
    by_cases htk : t ∈ timer :: keys (pre ++ post)
    · exact Or.inl ((hkeys t).2 htk)
    · simp only [List.mem_cons, not_or] at htk
      have r : Ring l.link none (nodes pre ++ nodes post) := by
        rw [← nodes_append]
        exact h.ring
      refine Or.inr (ring_listAddBefore_frame_at r (hplaced.resolve_left htk.2) ?_ ?_)
      · rw [← nodes_append]
        exact apart_nodes htk.2
      · simpa using Ne.symm htk.1

/-! ## del_timer -/

theorem delTimer_spec {x : Nat × Nat} (h : Rep l (q1 ++ x :: q2))
    (hbound : x.2 ≠ 0 → ∀ y ∈ q2.head?, y.2 + x.2 < 2 ^ 32) :
    ∃ l', delTimer l x.1 = done l' ∧ l'.proc = l.proc ∧ Rep l' (q1 ++ raise x.2 q2) ∧
      ∀ t, Placed l (q1 ++ x :: q2) t → Placed l' (q1 ++ raise x.2 q2) t := by
  have hx : l.expires x.1 = x.2 := h.expires x (by simp)
  have hlinked : ¬ listEmpty l.link (some x.1) := h.listEmpty_iff_not_mem (by simp)
  have r : Ring l.link none (nodes q1 ++ some x.1 :: nodes q2) := by
    simpa [nodes] using h.ring
  have hnext : listNext l.link (some x.1) = (nodes q2).headD none := r.next_mem
  have hring : Ring (listDelInit l.link (some x.1)) none (nodes (q1 ++ raise x.2 q2)) := by
    have := ring_listDelInit r
    rw [nodes_append]
    simpa [nodes] using this
  have hnd := h.nodup
  simp only [keys_append, keys_cons, List.nodup_append, List.nodup_cons] at hnd
  have hold : ∀ y ∈ q1 ++ q2, l.expires y.1 = y.2 := by
    intro y hy
    refine h.expires y ?_
    simp only [List.mem_append, List.mem_cons] at hy ⊢
    tauto
  have hplaced : ∀ l', l'.link = listDelInit l.link (some x.1) →
      ∀ t, Placed l (q1 ++ x :: q2) t → Placed l' (q1 ++ raise x.2 q2) t := by
    intro l' hl' t ht
    have hkeys : keys (q1 ++ raise x.2 q2) = keys (q1 ++ q2) := by
      rw [keys_append, keys_raise, ← keys_append]
    unfold Placed
    rw [hkeys, hl']
    by_cases htx : t = x.1
    · subst htx
      exact Or.inr (ring_listInit _ _)
    · by_cases htk : t ∈ keys (q1 ++ x :: q2)
      · left
        simp only [keys_append, keys_cons, List.mem_append, List.mem_cons] at htk ⊢
        tauto
      · right
        refine ring_listDelInit_frame r (ht.resolve_left htk) ?_
        have hapart := apart_nodes htk
        simpa [nodes] using hapart
  simp only [delTimer, hlinked, not_false_eq_true, if_true, hx]
  by_cases hzero : x.2 = 0
  · -- Nothing is owed to the timer behind it.
    refine ⟨{ l with link := listDelInit l.link (some x.1) }, by simp [hzero], rfl, ⟨hring, ?_⟩,
      hplaced _ rfl⟩
    rw [hzero, raise_zero]
    exact hold
  · cases q2 with
    | nil =>
        have hnone : listNext l.link (some x.1) = none := hnext
        exact ⟨{ l with link := listDelInit l.link (some x.1) }, by simp [hzero, hnone], rfl,
          ⟨hring, hold⟩, hplaced _ rfl⟩
    | cons y q2 =>
        have hsome : listNext l.link (some x.1) = some y.1 := hnext
        have hy : l.expires y.1 = y.2 := h.expires y (by simp)
        have hsum : y.2 + x.2 < 2 ^ 32 := hbound hzero y (by simp)
        refine ⟨{ l with
          link := listDelInit l.link (some x.1)
          expires := Function.update l.expires y.1 (y.2 + x.2) }, ?_, rfl, ⟨hring, ?_⟩,
          hplaced _ rfl⟩
        · have hadd : add 32 y.2 x.2 = done (y.2 + x.2) := add_of_lt hsum
          simp [hzero, hsome, hy, hadd]
        · intro z hz
          have hyq1 : y.1 ∉ keys q1 := fun hc => hnd.2.2 _ hc _ (by simp) rfl
          have hyq2 : y.1 ∉ keys q2 := (List.nodup_cons.1 hnd.2.1.2).1
          simp only [raise, List.mem_append, List.mem_cons] at hz
          rcases hz with hz | rfl | hz
          · have hne : z.1 ≠ y.1 := fun hc => hyq1 (hc ▸ List.mem_map_of_mem hz)
            simp [hne, hold z (by simp [hz])]
          · simp
          · have hne : z.1 ≠ y.1 := fun hc => hyq2 (hc ▸ List.mem_map_of_mem hz)
            simp [hne, hold z (by simp [hz])]

/-! ## run_timer_list -/

variable {cls : SchedClass Q} {m m' : Machine Q}

/-- A process whose timer is in the list: it sleeps for the timer, or it was woken early. -/
def Sleeper (p : Proc) : Prop :=
  (p.state = ProcState.sleeping ∧ p.waitState = wtTimer) ∨
    (p.state = ProcState.runnable ∧ p.waitState = 0)

/-- The state after the processes `ps` have been woken. -/
structure Awakened (m : Machine Q) (ps : List Nat) (m' : Machine Q) : Prop where
  current : m'.current = m.current
  idleproc : m'.idleproc = m.idleproc
  woken : ∀ p ∈ ps, (m'.proc p).state = ProcState.runnable ∧ (m'.proc p).waitState = 0
  others : ∀ p, p ∉ ps → (m'.proc p).state = (m.proc p).state ∧
    (m'.proc p).waitState = (m.proc p).waitState

theorem Awakened.refl (m : Machine Q) : Awakened m [] m :=
  ⟨rfl, rfl, by simp, fun p _ => ⟨rfl, rfl⟩⟩

theorem Awakened.cons {p : Nat} {ps : List Nat} {m'' : Machine Q} (h : Awakened m [p] m')
    (h' : Awakened m' ps m'') : Awakened m (p :: ps) m'' := by
  refine ⟨h'.current.trans h.current, h'.idleproc.trans h.idleproc, ?_, ?_⟩
  · intro x hx
    by_cases hxs : x ∈ ps
    · exact h'.woken x hxs
    · have hxp : x = p := by
        simpa [hxs] using hx
      subst hxp
      rw [(h'.others x hxs).1, (h'.others x hxs).2]
      exact h.woken x (by simp)
  · intro x hx
    simp only [List.mem_cons, not_or] at hx
    rw [(h'.others x hx.2).1, (h'.others x hx.2).2]
    exact h.others x (by simpa using hx.1)

theorem Awakened.sleeper {ps : List Nat} {p : Nat} (h : Awakened m ps m')
    (hp : Sleeper (m.proc p)) : Sleeper (m'.proc p) := by
  by_cases hps : p ∈ ps
  · exact Or.inr (h.woken p hps)
  · unfold Sleeper
    rw [(h.others p hps).1, (h.others p hps).2]
    exact hp

/-- Waking a sleeper passes the assertions of `run_timer_list` and of `wakeup_proc`. -/
theorem wakeupProc_sleeper {p : Nat} (cls : SchedClass Q) (hp : Sleeper (m.proc p)) :
    ∃ m', wakeupProc cls m p = done m' ∧ Awakened m [p] m' := by
  have hzombie : (m.proc p).state ≠ ProcState.zombie := by
    rcases hp with ⟨h, _⟩ | ⟨h, _⟩ <;> simp [h]
  rcases wakeupProc_spec cls hzombie with ⟨m', hm', hcur, hidle, hstate, hwait, hsame, hothers⟩
  refine ⟨m', hm', hcur, hidle, ?_, fun q hq => hothers q (by simpa using hq)⟩
  intro q hq
  have hqp : q = p := by
    simpa using hq
  subst hqp
  refine ⟨hstate, ?_⟩
  rcases hp with ⟨h, _⟩ | ⟨h, h0⟩
  · exact hwait (by simp [h])
  · rw [hsame h]
    exact h0

theorem checkWaitState_sleeper {p : Proc} (hp : Sleeper p) : checkWaitState p = done () := by
  unfold checkWaitState
  rcases hp with ⟨_, h⟩ | ⟨_, h⟩
  · have hint : interruptible p := by
      unfold interruptible
      rw [h]
      decide
    have hne : p.waitState ≠ 0 := by
      rw [h]
      decide
    rw [if_pos hne]
    exact assert_of hint
  · simp [h]

/-- `wakeup_proc` of several processes, one after the other. -/
inductive Wakes (cls : SchedClass Q) : Machine Q → List Nat → Machine Q → Prop where
  | nil {m : Machine Q} : Wakes cls m [] m
  | cons {m m1 m2 : Machine Q} {p : Nat} {ps : List Nat} (hp : wakeupProc cls m p = done m1)
      (hps : Wakes cls m1 ps m2) : Wakes cls m (p :: ps) m2

/-- One round of the inner loop at a timer that is due. -/
theorem expireLoop_due {x : Nat × Nat} {rest : List (Nat × Nat)} (cls : SchedClass Q)
    (h : Rep l (x :: rest)) (hs : Sleeper (m.proc (l.proc x.1))) (hx : x.2 = 0) :
    ∃ l' m', (∀ bound, expireLoop cls (bound + 1) l m x.1 =
        match (nodes rest).headD none with
        | none => done ([x.1], l', m')
        | some next => do
            let (woken, l'', m'') ← expireLoop cls bound l' m' next
            pure (x.1 :: woken, l'', m'')) ∧
      l'.proc = l.proc ∧ Rep l' rest ∧ Awakened m [l.proc x.1] m' ∧
      wakeupProc cls m (l.proc x.1) = done m' ∧
      ∀ t, Placed l (x :: rest) t → Placed l' rest t := by
  have hexp : l.expires x.1 = 0 := (h.expires x (by simp)).trans hx
  have r : Ring l.link none ([] ++ some x.1 :: nodes rest) := by
    simpa [nodes] using h.ring
  have hnext : listNext l.link (some x.1) = (nodes rest).headD none := r.next_mem
  rcases wakeupProc_sleeper cls hs with ⟨m', hwake, hm'⟩
  rcases @delTimer_spec l [] rest x h (fun hc => absurd hx hc) with ⟨l', hdel, hproc, hrep, hplaced⟩
  refine ⟨l', m', fun bound => ?_, hproc, by simpa [hx] using hrep, hm', hwake,
    by simpa [hx] using hplaced⟩
  simp only [expireLoop, hexp, if_true, checkWaitState_sleeper hs, hwake, hdel, bind_done, hnext,
    pure_eq_done]

/-- The inner loop wakes the timers at the front whose difference is 0, in order, and stops. -/
theorem expireLoop_spec {x : Nat × Nat} {rest : List (Nat × Nat)} (cls : SchedClass Q)
    (h : Rep l (x :: rest)) (hs : ∀ y ∈ x :: rest, Sleeper (m.proc (l.proc y.1))) :
    ∃ l' m', (∀ bound, (x :: rest).length < bound →
        expireLoop cls bound l m x.1 = done (keys (expired (x :: rest)), l', m')) ∧
      l'.proc = l.proc ∧ Rep l' (pending (x :: rest)) ∧
      Awakened m ((keys (expired (x :: rest))).map l.proc) m' ∧
      Wakes cls m ((keys (expired (x :: rest))).map l.proc) m' ∧
      ∀ t, Placed l (x :: rest) t → Placed l' (pending (x :: rest)) t := by
  induction rest generalizing x l m with
  | nil =>
      by_cases hx : x.2 = 0
      · rcases expireLoop_due cls h (hs x (by simp)) hx with
          ⟨l', m', hstep, hproc, hrep, hm', hwake, hplaced⟩
        rw [expired_cons_of_zero hx, pending_cons_of_zero hx]
        refine ⟨l', m', fun bound hbound => ?_, hproc, hrep, hm', Wakes.cons hwake Wakes.nil, hplaced⟩
        rcases Nat.exists_eq_add_of_lt hbound with ⟨k, rfl⟩
        exact hstep _
      · have hexp : l.expires x.1 ≠ 0 := by
          rw [h.expires x (by simp)]
          exact hx
        rw [expired_cons_of_ne hx, pending_cons_of_ne hx]
        refine ⟨l, m, fun bound hbound => ?_, rfl, h, Awakened.refl m, Wakes.nil, fun _ ht => ht⟩
        rcases Nat.exists_eq_add_of_lt hbound with ⟨k, rfl⟩
        simp only [expireLoop, hexp, if_false]
        rfl
  | cons y rest ih =>
      by_cases hx : x.2 = 0
      · rcases expireLoop_due cls h (hs x (by simp)) hx with
          ⟨l1, m1, hstep, hproc, hrep, hm1, hwake, hplaced⟩
        have hs1 : ∀ z ∈ y :: rest, Sleeper (m1.proc (l1.proc z.1)) := by
          intro z hz
          rw [hproc]
          exact hm1.sleeper (hs z (List.mem_cons_of_mem _ hz))
        rcases ih hrep hs1 with ⟨l', m', hloop, hproc', hrep', hm', hwakes, hplaced'⟩
        rw [expired_cons_of_zero hx, pending_cons_of_zero hx]
        refine ⟨l', m', fun bound hbound => ?_, hproc'.trans hproc, hrep', ?_, ?_,
          fun t ht => hplaced' t (hplaced t ht)⟩
        · cases bound with
          | zero => cases hbound
          | succ bound =>
              have hhead : (nodes (y :: rest)).headD none = some y.1 := rfl
              rw [hstep bound]
              simp only [hhead, hloop bound (Nat.lt_of_succ_lt_succ hbound), bind_done,
                pure_eq_done, keys_cons]
        · rw [hproc] at hm'
          exact hm1.cons hm'
        · rw [hproc] at hwakes
          exact Wakes.cons hwake hwakes
      · have hexp : l.expires x.1 ≠ 0 := by
          rw [h.expires x (by simp)]
          exact hx
        rw [expired_cons_of_ne hx, pending_cons_of_ne hx]
        refine ⟨l, m, fun bound hbound => ?_, rfl, h, Awakened.refl m, Wakes.nil, fun _ ht => ht⟩
        rcases Nat.exists_eq_add_of_lt hbound with ⟨k, rfl⟩
        simp only [expireLoop, hexp, if_false]
        rfl

/-- A tick lowers the first difference and wakes the timers that are due then. -/
theorem runTimerList_spec (cls : SchedClass Q) (h : Rep l q) (hlive : Live q)
    (hs : ∀ y ∈ q, Sleeper (m.proc (l.proc y.1))) :
    ∃ l' m', Returns (fun bound => runTimerList bound cls l m)
        (keys (expired (lower 1 q)), l', m') ∧
      l'.proc = l.proc ∧ Rep l' (pending (lower 1 q)) ∧
      Awakened m ((keys (expired (lower 1 q))).map l.proc) m' ∧
      (∃ m1, Wakes cls m ((keys (expired (lower 1 q))).map l.proc) m1 ∧
        m' = schedClassProcTick cls m1 m1.current) ∧
      ∀ t, Placed l q t → Placed l' (pending (lower 1 q)) t := by
  -- The tick of the scheduling class touches no state and no wait_state.
  have htick : ∀ {ps : List Nat} {m1 : Machine Q}, Awakened m ps m1 →
      Awakened m ps (schedClassProcTick cls m1 m1.current) := by
    intro ps m1 hm1
    have hsame := @sameProcs_procTick _ cls m1 m1.current
    refine ⟨hsame.current.trans hm1.current, hsame.idleproc.trans hm1.idleproc, ?_, ?_⟩
    · intro p hp
      rw [hsame.state, hsame.waitState]
      exact hm1.woken p hp
    · intro p hp
      rw [hsame.state, hsame.waitState]
      exact hm1.others p hp
  cases q with
  | nil =>
      have hnone : listNext l.link none = none := h.ring.next_head
      refine ⟨l, _, ⟨0, fun bound _ => ?_⟩, rfl, h, htick (Awakened.refl m), ⟨m, Wakes.nil, rfl⟩,
        fun _ ht => ht⟩
      simp only [runTimerList, hnone, bind_done, pure_eq_done]
      rfl
  | cons x rest =>
      have hsome : listNext l.link none = some x.1 := h.ring.next_head
      have hx : l.expires x.1 = x.2 := h.expires x (by simp)
      have hpos : 0 < x.2 := hlive x (by simp)
      have hrest : x.1 ∉ keys rest := (List.nodup_cons.1 h.nodup).1
      have h1 : Rep { l with expires := Function.update l.expires x.1 (x.2 - 1) }
          ((x.1, x.2 - 1) :: rest) := by
        refine ⟨h.ring, ?_⟩
        intro z hz
        rcases List.mem_cons.1 hz with rfl | hz
        · simp
        · have hne : z.1 ≠ x.1 := fun hc => hrest (hc ▸ List.mem_map_of_mem hz)
          simp [hne, h.expires z (by simp [hz])]
      have hs1 : ∀ y ∈ (x.1, x.2 - 1) :: rest, Sleeper (m.proc (l.proc y.1)) := by
        intro y hy
        rcases List.mem_cons.1 hy with rfl | hy
        · exact hs x (by simp)
        · exact hs y (by simp [hy])
      rcases expireLoop_spec cls h1 hs1 with ⟨l', m', hloop, hproc, hrep, hm', hwakes, hplaced⟩
      refine ⟨l', _, ⟨(x :: rest).length + 1, fun bound hbound => ?_⟩, hproc, hrep, htick hm',
        ⟨m', hwakes, rfl⟩, fun t ht => hplaced t ht⟩
      have hassert : assert (x.2 ≠ 0) = done () := assert_of hpos.ne'
      have hsub : sub x.2 1 = done (x.2 - 1) := sub_of_le hpos
      simp only [runTimerList, hsome, hx, hassert, hsub, bind_done, hloop bound hbound,
        pure_eq_done]
      rfl

end TriOS
