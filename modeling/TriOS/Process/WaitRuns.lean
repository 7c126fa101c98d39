import TriOS.Process.TreeRuns

/-!
# wait and exit in all runs

No process sleeps in `do_wait` while a child that it waits for is a zombie, and every zombie is
reaped once, by the process that is its parent then. A run is recorded with the exits and the reapings
in their order.
-/

namespace TriOS

open Chain Outcome Transition

variable {k t u : Kern} {m : Machine RunQueue} {p q c : Nat} {op : KernOp} {bound : Nat}

/-- The exit code of a zombie that has not been reaped. -/
def Kern.code (k : Kern) (p : Nat) : Option Int :=
  if p ∈ k.procList ∧ (k.machine.proc p).state = ProcState.zombie then
    some (k.machine.proc p).exitCode
  else none

/-- `p` sleeps in `do_wait` for a zombie `c`. -/
def Kern.Missed (k : Kern) (p c : Nat) : Prop :=
  ∃ pid, (k.ctx p).call = Call.wait pid ∧ (k.machine.proc p).state = ProcState.sleeping ∧
    k.code c ≠ none ∧ (k.machine.proc c).parent = some p ∧ (pid = 0 ∨ (k.machine.proc c).pid = pid)

/-- What the log of a run records. -/
inductive Event where
  | exited (p : Nat) (code : Int)
  | reaped (parent p : Nat) (code : Int)
  deriving DecidableEq, Repr

/-- The process that the event is about. -/
def Event.about : Event → Nat
  | Event.exited p _ => p
  | Event.reaped _ p _ => p

/-- The event of a pass of `do_wait` with the result. -/
def WaitResult.event (parent : Nat) : WaitResult → Option Event
  | WaitResult.reaped p code => some (Event.reaped parent p code)
  | _ => none

/-- The event of a step. -/
def KernOp.event (k : Kern) : KernOp → Option Event
  | KernOp.exit code => some (Event.exited k.current code)
  | KernOp.wait _ result => result.event k.current
  | KernOp.waitResume none => some (Event.exited k.current (-eKilled))
  | KernOp.waitResume (some result) => result.event k.current
  | _ => none

/-- The steps of the kernel, with the log. -/
def LogStep (s : Kern × List Event) (op : KernOp) (t : Kern × List Event) : Prop :=
  KernStep s.1 op t.1 ∧ t.2 = s.2 ++ (op.event s.1).toList

/-- Exits and reapings of one descriptor alternate, each reaping with the code of the exit before it.
The last component is the code that has not been delivered. -/
inductive Alternate (p : Nat) : List Event → Option Int → Prop where
  | start : Alternate p [] none
  | exited {es : List Event} (code : Int) (h : Alternate p es none) :
      Alternate p (es ++ [Event.exited p code]) (some code)
  | reaped {es : List Event} (parent : Nat) {code : Int} (h : Alternate p es (some code)) :
      Alternate p (es ++ [Event.reaped parent p code]) none

/-! ## What the steps do to sleepers and zombies -/

theorem code_ne_none : k.code p ≠ none ↔
    p ∈ k.procList ∧ (k.machine.proc p).state = ProcState.zombie := by
  unfold Kern.code
  by_cases h : p ∈ k.procList ∧ (k.machine.proc p).state = ProcState.zombie
  · simp [h]
  · simp [h]

theorem code_congr (hlist : p ∈ t.procList ↔ p ∈ k.procList)
    (hz : (t.machine.proc p).state = ProcState.zombie ↔
      (k.machine.proc p).state = ProcState.zombie)
    (hcode : (t.machine.proc p).exitCode = (k.machine.proc p).exitCode) : t.code p = k.code p := by
  unfold Kern.code
  rw [hcode]
  simp only [hlist, hz]

/-- No process begins to sleep in `do_wait`, and the zombies stay as they are. -/
structure Calm (k t : Kern) : Prop where
  waits : ∀ p pid, (t.ctx p).call = Call.wait pid →
    (t.machine.proc p).state = ProcState.sleeping →
    (k.ctx p).call = Call.wait pid ∧ (k.machine.proc p).state = ProcState.sleeping
  code : ∀ p, t.code p = k.code p
  same : ∀ p, k.code p ≠ none → (t.machine.proc p).parent = (k.machine.proc p).parent ∧
    (t.machine.proc p).pid = (k.machine.proc p).pid

theorem Calm.missed (h : Calm k t) (hm : t.Missed p c) : k.Missed p c := by
  rcases hm with ⟨pid, hcall, hsleep, hcode, hparent, hpid⟩
  rw [h.code] at hcode
  rcases h.waits p pid hcall hsleep with ⟨hcall', hsleep'⟩
  rcases h.same c hcode with ⟨hparent', hpid'⟩
  exact ⟨pid, hcall', hsleep', hcode, hparent'.symm.trans hparent, hpid'.symm ▸ hpid⟩

theorem Calm.trans (h : Calm k t) (h' : Calm t u) : Calm k u := by
  refine ⟨fun p pid hcall hsleep => ?_, fun p => (h'.code p).trans (h.code p), fun p hp => ?_⟩
  · rcases h'.waits p pid hcall hsleep with ⟨hcall', hsleep'⟩
    exact h.waits p pid hcall' hsleep'
  · rcases h.same p hp with ⟨hparent, hpid⟩
    rcases h'.same p (by rwa [h.code]) with ⟨hparent', hpid'⟩
    exact ⟨hparent'.trans hparent, hpid'.trans hpid⟩

/-- Waking processes up is calm. -/
theorem Awakes.calm {sync : Sync RunQueue} {timers : TimerList}
    (h : Awakes k.machine sync.machine) : Calm k { k with sync := sync, timers := timers } := by
  refine ⟨fun p pid hcall hsleep => ⟨hcall, ?_⟩, fun p => ?_, fun p _ => ?_⟩
  · rcases h.state p with ⟨hs, _⟩ | ⟨hs, _, _⟩
    · exact hs.symm.trans hsleep
    · exact hs
  · exact code_congr Iff.rfl h.zombie_iff (h.exitCode p)
  · exact ⟨(h.links p).1, h.pid p⟩

/-- So is a change of one descriptor that is no zombie, and of the calls of processes that do not
sleep. -/
theorem calm_of_setProc {v : Proc} (hproc : t.machine.proc = (k.machine.setProc q v).proc)
    (hlist : t.procList = k.procList) (hcode : k.code q = none)
    (hv : q ∈ k.procList → v.state ≠ ProcState.zombie)
    (hwait : ∀ p pid, (t.ctx p).call = Call.wait pid →
      (t.machine.proc p).state = ProcState.sleeping →
      p ≠ q ∧ (k.ctx p).call = Call.wait pid) : Calm k t := by
  have hother : ∀ p, p ≠ q → t.machine.proc p = k.machine.proc p := by
    intro p hp
    rw [hproc]
    exact setProc_of_ne _ _ hp
  have hself : t.machine.proc q = v := by
    rw [hproc]
    exact Function.update_self _ _ _
  refine ⟨fun p pid hcall hsleep => ?_, fun p => ?_, fun p hp => ?_⟩
  · rcases hwait p pid hcall hsleep with ⟨hne, hcall'⟩
    rw [hother p hne] at hsleep
    exact ⟨hcall', hsleep⟩
  · by_cases hp : p = q
    · subst hp
      rw [hcode]
      by_contra hc
      rcases code_ne_none.1 hc with ⟨hl, hz⟩
      rw [hlist] at hl
      rw [hself] at hz
      exact hv hl hz
    · exact code_congr (by rw [hlist]) (by rw [hother p hp]) (by rw [hother p hp])
  · have hne : p ≠ q := by
      rintro rfl
      exact hp hcode
    rw [hother p hne]
    exact ⟨rfl, rfl⟩

/-- A change of run fields, flags, pointers to children and calls. -/
theorem calm_of_proc (hlist : t.procList = k.procList)
    (hproc : ∀ p, (t.machine.proc p).state = (k.machine.proc p).state ∧
      (t.machine.proc p).parent = (k.machine.proc p).parent ∧
      (t.machine.proc p).pid = (k.machine.proc p).pid ∧
      (t.machine.proc p).exitCode = (k.machine.proc p).exitCode)
    (hcall : ∀ p pid, (t.ctx p).call = Call.wait pid → (k.ctx p).call = Call.wait pid) :
    Calm k t := by
  refine ⟨fun p pid hc hs => ⟨hcall p pid hc, (hproc p).1.symm.trans hs⟩, fun p => ?_, fun p _ =>
    ⟨(hproc p).2.1, (hproc p).2.2.1⟩⟩
  exact code_congr (by rw [hlist]) (by rw [(hproc p).1]) (hproc p).2.2.2

theorem calm_refl (k : Kern) : Calm k k :=
  calm_of_proc rfl (fun _ => ⟨rfl, rfl, rfl, rfl⟩) fun _ _ hc => hc

theorem KernInv.calm_schedule (hs : TriOS.schedule defaultSchedClass k.machine = done m) :
    Calm k (k.switched.setMachine m) := by
  refine calm_of_proc rfl (fun p => ?_) fun p pid hc => (switched_ctx k p).1.symm.trans hc
  rcases (schedule_proc hs).2 p with ⟨r, hr⟩
  change (m.proc p).state = _ ∧ (m.proc p).parent = _ ∧ (m.proc p).pid = _ ∧
    (m.proc p).exitCode = _
  rw [hr]
  exact ⟨rfl, rfl, rfl, rfl⟩

/-- A process that runs is no zombie. -/
theorem code_of_runnable (hrun : (k.machine.proc p).state = ProcState.runnable) :
    k.code p = none := by
  by_contra hc
  exact absurd (hrun.symm.trans (code_ne_none.1 hc).2) (by decide)

theorem code_of_not_listed (hp : p ∉ k.procList) : k.code p = none := by
  by_contra hc
  exact hp (code_ne_none.1 hc).1

theorem Table.listed_of_wait (h : Table k) {pid : Int} (hp : (k.ctx p).call = Call.wait pid) :
    p ∈ k.procList :=
  h.listed_of_call (by rw [hp]; simp)

theorem KernInv.calm_forkStart {stride priority : UInt32} (h : KernInv none k) (hc : c ∉ k.alive)
    (hfork : TriOS.forkStart k c stride priority = done t) : Calm k t := by
  have hlist : c ∉ k.procList := fun hn => hc (h.table.listed c hn).1
  rw [forkStart_eq hfork]
  refine calm_of_setProc rfl rfl (code_of_not_listed hlist) (fun hn => absurd hn hlist)
    fun p pid hcall _ => ?_
  have hcall' : (k.ctx p).call = Call.wait pid :=
    (setForking_ctx _ (some c) p).1.symm.trans hcall
  refine ⟨?_, hcall'⟩
  rintro rfl
  exact hlist (h.table.listed_of_wait hcall')

theorem KernInv.calm_forkLink {kids : Nat → List Nat} (h : KernInv none k)
    (hc : (k.ctx k.current).forking = some c) (hl : Linking k c t kids) : Calm k t := by
  have hcnot : c ∉ k.procList := fun hn => (h.table.forking _ _ hc).2.1 (Or.inl hn)
  have hcall : ∀ p, (t.ctx p).call = (k.ctx p).call := by
    intro p
    rw [hl.ctx p]
    exact (setForking_ctx k none p).1
  refine ⟨fun p pid hp hs => ?_, fun p => ?_, fun p hp => ?_⟩
  · rw [hcall] at hp
    have hpc : p ≠ c := by
      rintro rfl
      exact hcnot (h.table.listed_of_wait hp)
    rw [(hl.others p hpc).1] at hs
    exact ⟨hp, hs⟩
  · by_cases hpc : p = c
    · rw [hpc, code_of_not_listed hcnot, code_of_runnable hl.child.1]
    · refine code_congr ?_ (by rw [(hl.others p hpc).1]) (hl.exitCode p)
      rw [hl.lists.1, List.mem_cons]
      exact or_iff_right hpc
  · have hpc : p ≠ c := by
      rintro rfl
      exact hcnot (code_ne_none.1 hp).1
    exact ⟨hl.parent p, (hl.others p hpc).2.2⟩

theorem KernInv.calm_makeInit {stride priority : UInt32} (h : KernInv none k) (huser : k.InUser)
    (hc : c ∉ k.alive) (hinit : TriOS.makeInit bound k c stride priority = done t) : Calm k t := by
  simp only [TriOS.makeInit, bind_eq_done, assert_eq_done, pure_eq_done, done.injEq] at hinit
  rcases hinit with ⟨k1, hstart, k2, hlink, _, hpid, rfl⟩
  rcases forkStart_current huser hstart with ⟨hforking, huser1⟩
  have h1 := h.forkStart hc hstart
  rcases h1.forkLink hforking huser1 hlink with ⟨_, kids, hl⟩
  have h3 : Calm k2 { k2 with initproc := findProc k2 k2.lastPid } :=
    calm_of_proc rfl (fun _ => ⟨rfl, rfl, rfl, rfl⟩) fun _ _ hc => hc
  exact ((h.calm_forkStart hc hstart).trans (h1.calm_forkLink hforking hl)).trans h3

/-- The current process goes to sleep in another call than `do_wait`. -/
theorem KernInv.calm_block {sync : Sync RunQueue} {timers : TimerList} {call : Call} {v : Proc}
    (h : KernInv none k) (huser : k.InUser)
    (hmachine : sync.machine = k.machine.setProc k.current v) (hv : v.state ≠ ProcState.zombie)
    (hcall : ∀ pid, call ≠ Call.wait pid) :
    Calm k (({ k with sync := sync, timers := timers } : Kern).enter call) := by
  have hcur : Kern.current { k with sync := sync, timers := timers } = k.current := by
    change sync.machine.current = _
    rw [hmachine]
    rfl
  refine calm_of_setProc (congrArg Machine.proc hmachine) rfl
    (code_of_runnable (h.table.runs (Or.inl huser)).1) (fun _ => hv) fun p pid hp _ => ?_
  have hp' := (@enter_call k _ hcur rfl call p).symm.trans hp
  by_cases hpc : p = k.current
  · rw [if_pos hpc] at hp'
    exact absurd hp' (hcall pid)
  · rw [if_neg hpc] at hp'
    exact ⟨hpc, hp'⟩

/-- The current process returns to user mode. -/
theorem KernInv.calm_leave {sync : Sync RunQueue} {timers : TimerList}
    (hmachine : sync.machine = k.machine) :
    Calm k (({ k with sync := sync, timers := timers } : Kern).enter Call.user) := by
  have hcur : Kern.current { k with sync := sync, timers := timers } = k.current := by
    change sync.machine.current = _
    rw [hmachine]
    rfl
  refine calm_of_proc rfl (fun p => ?_) fun p pid hp => ?_
  · change (sync.machine.proc p).state = _ ∧ (sync.machine.proc p).parent = _ ∧
      (sync.machine.proc p).pid = _ ∧ (sync.machine.proc p).exitCode = _
    rw [hmachine]
    exact ⟨rfl, rfl, rfl, rfl⟩
  · have hp' := (@enter_call k _ hcur rfl Call.user p).symm.trans hp
    by_cases hpc : p = k.current
    · rw [if_pos hpc] at hp'
      cases hp'
    · rwa [if_neg hpc] at hp'

/-! ## do_wait -/

theorem zombieChild_none {procs : Nat → Proc} {before head : Option Nat} {xs : List Nat}
    {haskid r : Bool}
    (h : Chain.Linked (fun x => (procs x).optr) (fun x => (procs x).yptr) before head xs)
    (hsearch : zombieChild procs bound head haskid = done (r, none)) :
    ∀ x ∈ xs, (procs x).state ≠ ProcState.zombie := by
  induction bound generalizing before head xs haskid with
  | zero => cases hsearch
  | succ bound ih =>
      cases xs with
      | nil => simp
      | cons x xs =>
          rcases h with ⟨rfl, _, hrest⟩
          unfold zombieChild at hsearch
          by_cases hz : (procs x).state = ProcState.zombie
          · rw [if_pos hz] at hsearch
            cases hsearch
          · rw [if_neg hz] at hsearch
            intro y hy
            rcases List.mem_cons.1 hy with rfl | hy
            · exact hz
            · exact ih hrest hsearch y hy

/-- `do_wait` goes to sleep only if no child that it waits for is a zombie. -/
theorem waitSearch_none {pid : Int} (h : KernInv none k)
    (hsearch : waitSearch bound k pid = done (true, none)) (hc : c ∈ k.procList)
    (hparent : (k.machine.proc c).parent = some k.current)
    (hpid : pid = 0 ∨ (k.machine.proc c).pid = pid) :
    (k.machine.proc c).state ≠ ProcState.zombie := by
  rcases h.family with ⟨before, kids, hfamily⟩
  unfold waitSearch at hsearch
  by_cases hzero : pid ≠ 0
  · rw [if_pos hzero] at hsearch
    cases hfind : findProc k pid with
    | none =>
        rw [hfind] at hsearch
        cases hsearch
    | some x =>
        rw [hfind] at hsearch
        rcases h.table.findProc hfind with ⟨hlist, hxpid⟩
        -- Only one process has the pid.
        have hxc : x = c := by
          refine h.sched.pids x (h.table.listed x hlist).1 c (h.table.listed c hc).1 ?_
            (h.table.member_pid (Or.inl hlist))
          exact hxpid.trans (hpid.resolve_left hzero).symm
        subst hxc
        intro hz
        simp [hparent, hz] at hsearch
  · rw [if_neg hzero] at hsearch
    exact zombieChild_none (hfamily.tree.linked k.current h.sched.current) hsearch c
      (hfamily.mem_kids hc hparent)

/-- What a step does to the zombies, with the event that it is recorded with. -/
def Recorded (k t : Kern) : Option Event → Prop
  | none => ∀ p, t.code p = k.code p
  | some (Event.exited p code) =>
      p = k.current ∧ k.code p = none ∧ ∀ q, t.code q = if q = p then some code else k.code q
  | some (Event.reaped parent p code) =>
      (parent = k.current ∧ k.code p = some code ∧ (k.machine.proc p).parent = some parent) ∧
        p ∉ t.alive ∧ ∀ q, t.code q = if q = p then none else k.code q

/-- Nobody sleeps for a zombie. -/
def Kern.Prompt (k : Kern) : Prop :=
  ∀ p c, ¬ k.Missed p c

theorem Calm.recorded (h : Calm k t) (hk : k.Prompt) : t.Prompt ∧ Recorded k t none :=
  ⟨fun p c hm => hk p c (h.missed hm), h.code⟩

/-- A pass of `do_wait`. -/
theorem KernInv.wait_recorded {pid : Int} {r : WaitResult} (h : KernInv none k) (hk : k.Prompt)
    (hrun : k.InUser ∨ (k.ctx k.current).switched = true)
    (hwait : TriOS.doWait bound k pid = done (r, t)) :
    t.Prompt ∧ Recorded k t (r.event k.current) := by
  rcases h.family with ⟨before, kids, hfamily⟩
  have hruns := (h.table.runs hrun).1
  simp only [TriOS.doWait, bind_eq_done, Prod.exists] at hwait
  rcases hwait with ⟨haskid, found, hsearch, hwait⟩
  cases found with
  | some p =>
      simp only [reap, bind_eq_done, assert_eq_done, pure_eq_done, done.injEq] at hwait
      rcases hwait with ⟨_, ⟨_, hinit⟩, procs, hunlink, hr⟩
      rcases Prod.mk.inj hr with ⟨rfl, rfl⟩
      rcases waitSearch_found h hfamily hsearch with ⟨hp, hz, _⟩
      have hlist : p ∈ k.procList := (hfamily.child p).2 ⟨_, hp⟩
      have hbefore : before = fun _ => none := funext fun q => hfamily.before q (by simp)
      subst hbefore
      rcases hfamily.tree.unlink hp with ⟨procs', hunlink', _, hparent, hbody⟩
      cases Outcome.done.inj (hunlink.symm.trans hunlink')
      have hcode : k.code p = some (k.machine.proc p).exitCode := if_pos ⟨hlist, hz⟩
      have hcodes : ∀ q, ((TriOS.freed k procs p).enter Call.user).code q =
          if q = p then none else k.code q := by
        intro q
        by_cases hqp : q = p
        · rw [if_pos hqp, hqp]
          exact code_of_not_listed h.table.nodup.not_mem_erase
        · rw [if_neg hqp]
          refine @code_congr k ((TriOS.freed k procs p).enter Call.user) q ?_ ?_
            (hbody q).fields.2.2.2.2
          · exact List.mem_erase_of_ne hqp
          · change (procs q).state = _ ↔ _
            rw [(hbody q).fields.1]
      refine ⟨fun x c hm => ?_, ⟨rfl, hcode, hfamily.tree.parent _ p hp⟩, Finset.notMem_erase p _,
        hcodes⟩
      rcases hm with ⟨pid', hcall, hsleep, hne, hpar, hpid⟩
      have hcp : c ≠ p := by
        rintro rfl
        exact hne ((hcodes c).trans (if_pos rfl))
      refine hk x c ⟨pid', ?_, (hbody x).fields.1.symm.trans hsleep, ?_, (hparent c).symm.trans hpar,
        ?_⟩
      · have hcall' := (@enter_call (TriOS.freed k procs p) (TriOS.freed k procs p) rfl rfl Call.user x).symm.trans
          hcall
        by_cases hxc : x = (TriOS.freed k procs p).current
        · rw [if_pos hxc] at hcall'
          cases hcall'
        · rw [if_neg hxc] at hcall'
          by_cases hxp : x = p
          · have hself : (TriOS.freed k procs p).ctx p = Context.start := Function.update_self _ _ _
            rw [hxp, hself] at hcall'
            cases hcall'
          · exact (congrArg Context.call (Function.update_of_ne hxp _ _)).symm.trans hcall'
      · have hsame := hcodes c
        rw [if_neg hcp] at hsame
        exact hsame ▸ hne
      · have hpidc : (procs c).pid = (k.machine.proc c).pid := (hbody c).fields.2.1
        rw [← hpidc]
        exact hpid
  | none =>
      by_cases hkid : haskid = true
      · simp only [hkid, if_true, pure_eq_done, done.injEq] at hwait
        rcases Prod.mk.inj hwait with ⟨rfl, rfl⟩
        let v : Proc :=
          { k.machine.proc k.current with state := ProcState.sleeping, waitState := wtChild }
        have hself : (k.machine.setProc k.current v).proc k.current = v := Function.update_self _ _ _
        have hother : ∀ p, p ≠ k.current →
            (k.machine.setProc k.current v).proc p = k.machine.proc p := fun p hp =>
          setProc_of_ne _ _ hp
        have hfields : ∀ p, ((k.machine.setProc k.current v).proc p).parent =
            (k.machine.proc p).parent ∧
            ((k.machine.setProc k.current v).proc p).pid = (k.machine.proc p).pid := by
          intro p
          by_cases hp : p = k.current
          · rw [hp, hself]
            exact ⟨rfl, rfl⟩
          · rw [hother p hp]
            exact ⟨rfl, rfl⟩
        have hcodes : ∀ q, ((k.setMachine (k.machine.setProc k.current v)).enter
            (Call.wait pid)).code q = k.code q := by
          intro q
          by_cases hq : q = k.current
          · rw [hq, code_of_runnable hruns]
            by_contra hc
            have hz := (code_ne_none.1 hc).2
            have hz' : v.state = ProcState.zombie := (congrArg Proc.state hself).symm.trans hz
            cases hz'
          · refine code_congr Iff.rfl ?_ ?_
            · change ((k.machine.setProc k.current v).proc q).state = _ ↔ _
              rw [hother q hq]
            · exact congrArg Proc.exitCode (hother q hq)
        refine ⟨fun x c hm => ?_, hcodes⟩
        rcases hm with ⟨pid', hcall, hsleep, hne, hpar, hpid⟩
        rw [hcodes] at hne
        have hpar' := (hfields c).1.symm.trans hpar
        have hpid' : pid' = 0 ∨ (k.machine.proc c).pid = pid' := by
          rw [← (hfields c).2]
          exact hpid
        have hcall' := (@enter_call k (k.setMachine (k.machine.setProc k.current v)) rfl rfl
          (Call.wait pid) x).symm.trans hcall
        by_cases hx : x = k.current
        · rw [if_pos hx] at hcall'
          cases hcall'
          rw [hx] at hpar'
          have hlz := code_ne_none.1 hne
          rw [hkid] at hsearch
          exact waitSearch_none h hsearch hlz.1 hpar' hpid' hlz.2
        · rw [if_neg hx] at hcall'
          refine hk x c ⟨pid', hcall', ?_, hne, hpar', hpid'⟩
          exact (congrArg Proc.state (hother x hx)).symm.trans hsleep
      · simp only [hkid, if_false, pure_eq_done, done.injEq, Bool.false_eq_true] at hwait
        rcases Prod.mk.inj hwait with ⟨rfl, rfl⟩
        exact (@KernInv.calm_leave k k.sync k.timers rfl).recorded hk

/-! ## do_exit -/

/-- A process that waits for its children does not sleep any more once it has been woken. -/
theorem wakeIfWaiting_up {pid : Int} (h : Table k) (hp : k.Member p)
    (hcall : (k.ctx p).call = Call.wait pid) (hwake : wakeIfWaiting k.machine p = done m) :
    (m.proc p).state ≠ ProcState.sleeping := by
  unfold wakeIfWaiting at hwake
  by_cases hw : (k.machine.proc p).waitState = wtChild
  · rw [if_pos hw] at hwake
    rcases wakeupProc_spec defaultSchedClass (wakeupProc_not_zombie hwake) with
      ⟨m', hm', _, _, hrun, _⟩
    cases Outcome.done.inj (hm'.symm.trans hwake)
    rw [hrun]
    decide
  · rw [if_neg hw] at hwake
    cases hwake
    have hstatus := h.status p hp
    rw [hcall] at hstatus
    rcases hstatus with ⟨_, hws⟩ | ⟨hs, _⟩
    · exact absurd hws hw
    · rw [hs]
      decide

/-- In a round of the loop of `do_exit` nobody is left asleep, and the zombies stay as they are. -/
theorem KernInv.round_prompt {child init : Nat} {exiting : Option Nat} (h : KernInv exiting k)
    (hne : init ≠ k.current) (hinit : k.initproc = some init)
    (hadopt : KernInv exiting (adopted k init child)) (hk : k.Prompt)
    (hwake : TriOS.wakeForZombie (adopted k init child).machine child init = done m) :
    (k.setMachine m).Prompt ∧ ∀ q, (k.setMachine m).code q = k.code q := by
  have hmember : (adopted k init child).Member init := Or.inl (h.table.init init hinit).1
  have haw := wakeForZombie_awakes hadopt.table hmember hwake
  have hcalm : Calm (adopted k init child) (k.setMachine m) :=
    @Awakes.calm (adopted k init child) { k.sync with machine := m } k.timers haw
  rcases @adoptChild_spec k.machine.proc k.current init child hne with ⟨_, _, _, hparent, hbody⟩
  have hcodes : ∀ q, (adopted k init child).code q = k.code q := fun q =>
    @code_congr k (adopted k init child) q Iff.rfl
      (iff_of_eq (congrArg (· = _) (hbody q).fields.1)) (hbody q).fields.2.2.2.2
  refine ⟨fun x c hm => ?_, fun q => (hcalm.code q).trans (hcodes q)⟩
  rcases hm with ⟨pid, hcall, hsleep, hcode, hpar, hpid⟩
  have hmissed : (adopted k init child).Missed x c :=
    hcalm.missed ⟨pid, hcall, hsleep, hcode, hpar, hpid⟩
  rcases hmissed with ⟨pid', hcall', hsleep', hcode', hpar', hpid'⟩
  rw [hcodes] at hcode'
  by_cases hc : c = child
  · have hx : x = init := by
      have hp := congrFun hparent c
      rw [hc, Function.update_self] at hp
      exact (Option.some.inj (hp.symm.trans (hc ▸ hpar'))).symm
    have hz : ((adopted k init child).machine.proc child).state = ProcState.zombie :=
      (hbody child).fields.1.trans (hc ▸ (code_ne_none.1 hcode').2)
    unfold TriOS.wakeForZombie at hwake
    rw [if_pos hz] at hwake
    rw [hx] at hcall' hsleep
    exact wakeIfWaiting_up hadopt.table hmember hcall' hwake hsleep
  · have hp := congrFun hparent c
    rw [Function.update_of_ne hc] at hp
    refine hk x c ⟨pid', hcall', (hbody x).fields.1.symm.trans hsleep', hcode',
      hp.symm.trans hpar', ?_⟩
    have hpidc : (adoptChild k.machine.proc k.current init child c).pid = (k.machine.proc c).pid :=
      (hbody c).fields.2.1
    rw [← hpidc]
    exact hpid'

/-- `do_exit` up to its call of `schedule`. -/
theorem KernInv.exit_recorded {code : Int} (h : KernInv none k) (hk : k.Prompt)
    (hrun : (k.machine.proc k.current).state = ProcState.runnable)
    (hcall : (∀ sem w, (k.ctx k.current).call ≠ Call.down sem w) ∧
      ∀ timer, (k.ctx k.current).call ≠ Call.sleep timer)
    (hexit : TriOS.doExit bound k code = done t) :
    t.Prompt ∧ Recorded k t (some (Event.exited k.current code)) := by
  rcases doExit_done hexit with ⟨hidle, hinit, parent, m1, m2, hparent, hwake, hloop, rfl⟩
  let v : Proc := { k.machine.proc k.current with state := ProcState.zombie, exitCode := code }
  let m0 := k.machine.setProc k.current v
  let k0 := (k.setMachine m0).enter Call.exited
  have h0 : KernInv (some k.current) k0 := h.zombie hcall hidle hinit
  have hlist : k.current ∈ k.procList := h.table.current.resolve_right hidle
  have hself : m0.proc k.current = v := Function.update_self _ _ _
  have hother : ∀ p, p ≠ k.current → m0.proc p = k.machine.proc p := fun p hp =>
    setProc_of_ne _ _ hp
  have hcodes0 : ∀ q, k0.code q = if q = k.current then some code else k.code q := by
    intro q
    by_cases hq : q = k.current
    · rw [if_pos hq, hq]
      have hz : (m0.proc k.current).state = ProcState.zombie := congrArg Proc.state hself
      have hcode : (m0.proc k.current).exitCode = code := congrArg Proc.exitCode hself
      exact (if_pos (show k.current ∈ k.procList ∧ _ from ⟨hlist, hz⟩)).trans (congrArg some hcode)
    · rw [if_neg hq]
      exact code_congr Iff.rfl (iff_of_eq (congrArg (fun w => Proc.state w = _) (hother q hq)))
        (congrArg Proc.exitCode (hother q hq))
  have hmember : k0.Member parent := h.parent_member hlist
    ((congrArg Proc.parent hself).symm.trans hparent)
  have h1 : KernInv (some k.current) (k0.setMachine m1) := h0.wakeIfWaiting hmember hwake
  have haw1 := wakeIfWaiting_awakes h0.table hmember hwake
  have hcalm1 : Calm k0 (k0.setMachine m1) :=
    @Awakes.calm k0 { k0.sync with machine := m1 } k0.timers haw1
  -- The parent is awake now, and nobody else waits for the new zombie.
  have hprompt1 : (k0.setMachine m1).Prompt := by
    intro x c hm
    rcases hcalm1.missed hm with ⟨pid, hcallx, hsleep, hcode, hpar, hpid⟩
    by_cases hc : c = k.current
    · have hx : x = parent := by
        rw [hc] at hpar
        exact Option.some.inj (hpar.symm.trans hparent)
      rcases hm with ⟨_, _, hsleep1, _⟩
      rw [hx] at hcallx hsleep1
      exact wakeIfWaiting_up h0.table hmember hcallx hwake hsleep1
    · rw [hcodes0, if_neg hc] at hcode
      have hcallx' := (@enter_call k (k.setMachine m0) rfl rfl Call.exited x).symm.trans hcallx
      by_cases hx : x = k.current
      · rw [if_pos hx] at hcallx'
        cases hcallx'
      · rw [if_neg hx] at hcallx'
        refine hk x c ⟨pid, hcallx', ?_, hcode, ?_, ?_⟩
        · exact (congrArg Proc.state (hother x hx)).symm.trans hsleep
        · exact (congrArg Proc.parent (hother c hc)).symm.trans hpar
        · have hpidc : (m0.proc c).pid = (k.machine.proc c).pid :=
            congrArg Proc.pid (hother c hc)
          rw [← hpidc]
          exact hpid
  have hloop' := reparent_rule (fun m => (KernInv (some k.current) (k0.setMachine m) ∧
    m.current = k.current) ∧ (k0.setMachine m).Prompt ∧
      ∀ q, (k0.setMachine m).code q = k0.code q) ?_ ⟨⟨h1, haw1.current⟩, hprompt1, hcalm1.code⟩
      hloop
  · rcases hloop' with ⟨⟨⟨_, hcur2⟩, hprompt2, hcodes2⟩, _⟩
    rw [exit_commutes hcur2]
    refine ⟨hprompt2, rfl, code_of_runnable hrun, fun q => (hcodes2 q).trans (hcodes0 q)⟩
  · rintro m m' child init ⟨⟨hm, hcur⟩, hprompt, hcodes⟩ hi hcptr hround
    have hne : init ≠ k.current := fun hc => hinit (hc ▸ hi.symm)
    have hcur' : (k0.setMachine m).current = k.current := hcur
    have hne' : init ≠ (k0.setMachine m).current := hcur'.symm ▸ hne
    have hm' : KernInv (some (k0.setMachine m).current) (k0.setMachine m) := hcur'.symm ▸ hm
    have hadopt := hm'.adopt hi hne' hcptr
    have hnext := @KernInv.round_prompt (k0.setMachine m) m' child init _ hm' hne' hi hadopt
      hprompt hround
    exact ⟨@KernInv.round (k0.setMachine m) m' k.current child init hm hcur hi hne hcptr hround,
      hnext.1, fun q => (hnext.2 q).trans (hcodes q)⟩

/-! ## Runs -/

theorem KernInv.recorded (h : KernInv none k) (hk : k.Prompt) (hop : op.CopiesFiles)
    (hstep : KernStep k op t) : t.Prompt ∧ Recorded k t (op.event k) := by
  have hawakes : ∀ {m : Machine RunQueue}, Awakes k.machine m →
      (k.setMachine m).Prompt ∧ Recorded k (k.setMachine m) none := fun {m} haw =>
    (@Awakes.calm k { k.sync with machine := m } k.timers haw).recorded hk
  have hvalue : ∀ value, Calm k { k with sync := { k.sync with value := value } } := fun value =>
    @Awakes.calm k { k.sync with value := value } k.timers (Awakes.refl _)
  cases op with
  | procInit child stride priority =>
      rcases hstep with ⟨⟨hidle, _, _, hchild⟩, hreturns⟩
      rcases hreturns.exists_eq 0 with ⟨bound, _, hdone⟩
      exact (h.calm_makeInit hidle.1 hchild hdone).recorded hk
  | schedule =>
      rcases hstep with ⟨_, m, hs, rfl⟩
      exact (KernInv.calm_schedule hs).recorded hk
  | yield =>
      rcases hstep with rfl
      exact hawakes (sameProcs_setRun _ _ _).awakes
  | setPriority priority =>
      rcases hstep with rfl
      exact hawakes (sameProcs_setRun _ _ _).awakes
  | tick =>
      rcases hstep with ⟨woken, timers, m, htick, rfl⟩
      exact (@Awakes.calm k { k.sync with machine := m } timers (h.tick htick).2).recorded hk
  | kill pid =>
      cases hfind : findProc k pid with
      | none =>
          simp only [KernStep, hfind] at hstep
          rw [hstep]
          exact (calm_refl k).recorded hk
      | some p =>
          simp only [KernStep, hfind] at hstep
          rcases hstep with ⟨r, m, hkill, rfl⟩
          have hp : k.Member p := Or.inl (h.table.findProc hfind).1
          exact hawakes (awakes_killProc hkill (h.table.not_uninit hp))
  | wakeup p =>
      rcases hstep with ⟨⟨hlist, _⟩, m, hwake, rfl⟩
      exact hawakes (awakes_wakeupProc hwake (h.table.not_uninit (Or.inl hlist)))
  | forkStart child stride priority =>
      rcases hstep with ⟨⟨_, _, hchild⟩, hfork⟩
      exact (h.calm_forkStart hchild hfork).recorded hk
  | forkFail =>
      rcases hstep with ⟨child, _, rfl⟩
      have hctx := setForking_ctx { k with alive := k.alive.erase child } none
      refine (@calm_of_proc k (TriOS.forkFail k child) rfl (fun _ => ⟨rfl, rfl, rfl, rfl⟩)
        fun p pid hc => ?_).recorded hk
      exact (hctx p).1.symm.trans hc
  | forkFinish filesOk =>
      rcases hstep with ⟨child, ⟨huser, hforking⟩, hreturns⟩
      rcases hreturns.exists_eq 0 with ⟨bound, _, hdone⟩
      cases filesOk with
      | false => exact absurd rfl hop
      | true =>
          simp only [TriOS.forkFinish, bind_eq_done, if_true, pure_eq_done, done.injEq] at hdone
          rcases hdone with ⟨k', hlink, rfl⟩
          rcases (h.forkLink hforking huser hlink).2 with ⟨kids, hl⟩
          exact (h.calm_forkLink hforking hl).recorded hk
  | exit code =>
      rcases hstep with ⟨hidle, hreturns⟩
      rcases hreturns.exists_eq 0 with ⟨bound, _, hdone⟩
      exact h.exit_recorded hk (h.table.runs (Or.inl hidle.1)).1 hidle.1.calls hdone
  | wait pid result =>
      rcases hstep with ⟨⟨hidle, _⟩, hreturns⟩
      rcases hreturns.exists_eq 0 with ⟨bound, _, hdone⟩
      exact h.wait_recorded hk (Or.inl hidle.1) hdone
  | waitResume result =>
      rcases hstep with ⟨pid, hback, hstep⟩
      by_cases hexiting : (k.machine.proc k.current).exiting = true
      · rw [if_pos hexiting] at hstep
        rcases hstep with ⟨rfl, hreturns⟩
        rcases hreturns.exists_eq 0 with ⟨bound, _, hdone⟩
        have hcalls : (∀ sem w, (k.ctx k.current).call ≠ Call.down sem w) ∧
            ∀ timer, (k.ctx k.current).call ≠ Call.sleep timer := by
          rw [hback.1]
          simp
        exact h.exit_recorded hk (h.table.runs (Or.inr hback.2)).1 hcalls hdone
      · rw [if_neg hexiting] at hstep
        rcases hstep with ⟨r, rfl, hreturns⟩
        rcases hreturns.exists_eq 0 with ⟨bound, _, hdone⟩
        exact h.wait_recorded hk (Or.inr hback.2) hdone
  | sleep time =>
      rcases hstep with ⟨⟨hidle, _⟩, hstep⟩
      by_cases htime : time = 0
      · rw [if_pos htime] at hstep
        rw [hstep]
        exact (calm_refl k).recorded hk
      · rw [if_neg htime] at hstep
        rcases hstep with ⟨timer, s, _, _, hsleep, rfl⟩
        exact (@KernInv.calm_block k { k.sync with machine := s.machine } s.timers (Call.sleep timer)
          _ h hidle.1 (startSleep_frame hsleep).2 (by simp) (by simp)).recorded hk
  | sleepEnd =>
      rcases hstep with ⟨timer, timers, _, _, rfl⟩
      exact (@KernInv.calm_leave k k.sync timers rfl).recorded hk
  | up sem =>
      rcases hstep with ⟨_, sync, hup, rfl⟩
      exact (@Awakes.calm k sync k.timers (h.up hup).2).recorded hk
  | down sem =>
      rcases hstep with ⟨⟨huser, _⟩, w, blocked, sync, hfresh, hdown, rfl⟩
      by_cases hv : 0 < k.sync.value sem
      · rcases Prod.mk.inj (Outcome.done.inj (hdown.symm.trans (down_of_pos hv))) with ⟨rfl, rfl⟩
        exact (hvalue _).recorded hk
      · rcases h.pending with ⟨queue, a, d, hpending⟩
        rcases down_of_not_pos hpending.waiting hv huser.inDown
          (fun p sem' hp => hfresh p sem' (inDown_eq.1 hp)) with
          ⟨sync', hdown', _, _, _, _, hmachine, _⟩
        rcases Prod.mk.inj (Outcome.done.inj (hdown.symm.trans hdown')) with ⟨rfl, rfl⟩
        exact (@KernInv.calm_block k sync k.timers (Call.down sem w) _ h huser hmachine (by simp)
          (by simp)).recorded hk
  | downResume =>
      rcases hstep with ⟨sem, w, sync, hback, hresume, rfl⟩
      refine (@KernInv.calm_leave k sync k.timers ?_).recorded hk
      exact h.downResume_machine hback hresume
  | tryDown sem =>
      rcases hstep with ⟨_, taken, sync, htry, rfl⟩
      unfold TriOS.tryDown at htry
      by_cases hv : k.sync.value sem > 0
      · rw [if_pos hv] at htry
        cases htry
        exact (hvalue _).recorded hk
      · rw [if_neg hv] at htry
        cases htry
        exact (calm_refl k).recorded hk

/-- The log of a run, as far as it is about one descriptor. -/
def Account (log : List Event) (p : Nat) : List Event :=
  log.filter fun e => e.about = p

theorem Recorded.account {e : Option Event} {log : List Event} (h : Recorded k t e)
    (hlog : ∀ p, Alternate p (Account log p) (k.code p)) (p : Nat) :
    Alternate p (Account (log ++ e.toList) p) (t.code p) := by
  have hsnoc : ∀ e : Event, Account (log ++ [e]) p =
      Account log p ++ if e.about = p then [e] else [] := by
    intro e
    unfold Account
    rw [List.filter_append]
    by_cases he : e.about = p
    · simp [he]
    · simp [he]
  cases e with
  | none =>
      rw [h p]
      simpa using hlog p
  | some e =>
      rw [Option.toList_some, hsnoc]
      cases e with
      | exited x code =>
          rcases h with ⟨_, hnone, hcodes⟩
          rw [hcodes]
          by_cases hp : p = x
          · subst hp
            have hold := hlog p
            rw [hnone] at hold
            simpa [Event.about] using Alternate.exited code hold
          · have hx : ¬ x = p := fun hx => hp hx.symm
            simpa [Event.about, hp, hx] using hlog p
      | reaped parent x code =>
          rcases h with ⟨⟨_, hsome, _⟩, _, hcodes⟩
          rw [hcodes]
          by_cases hp : p = x
          · subst hp
            have hold := hlog p
            rw [hsome] at hold
            simpa [Event.about] using Alternate.reaped parent hold
          · have hx : ¬ x = p := fun hx => hp hx.symm
            simpa [Event.about, hp, hx] using hlog p

end TriOS
