import TriOS.Process.KernelInv

/-!
# fork, exit and wait keep the invariant

The steps that change the list of the processes or the process tree. `do_exit` goes through states in
which a zombie still has children; it ends when `initproc` has adopted them all.
-/

namespace TriOS

open Chain Outcome

variable {k t : Kern} {m : Machine RunQueue} {p q c : Nat} {call : Call}
  {kids : Nat → List Nat} {before : Nat → Option Nat} {exiting : Option Nat} {bound : Nat}

/-- A process in `down` or in `do_sleep` is listed. -/
theorem Table.listed_of_waits (h : Table k) (hp : (∃ sem w, (k.ctx p).call = Call.down sem w) ∨
    ∃ timer, (k.ctx p).call = Call.sleep timer) : p ∈ k.procList := by
  refine h.listed_of_call ?_
  rcases hp with ⟨sem, w, hc⟩ | ⟨timer, hc⟩
  · rw [hc]
    exact fun hn => by cases hn
  · rw [hc]
    exact fun hn => by cases hn

theorem setForking_ctx (k : Kern) (child : Option Nat) (p : Nat) :
    ((k.setForking child).ctx p).call = (k.ctx p).call ∧
      ((k.setForking child).ctx p).switched = (k.ctx p).switched ∧
      ((k.setForking child).ctx p).forking =
        if p = k.current then child else (k.ctx p).forking := by
  by_cases hp : p = k.current
  · simp [Kern.setForking, hp]
  · simp [Kern.setForking, hp]

/-! ## do_fork -/

/-- The descriptor of a new child of the current process. -/
def childProc (k : Kern) (stride priority : UInt32) : Proc :=
  { allocProc stride priority with parent := some k.current }

theorem forkStart_eq {stride priority : UInt32} (h : forkStart k c stride priority = done t) :
    t = ({ k.setMachine (k.machine.setProc c (childProc k stride priority)) with
      alive := insert c k.alive } : Kern).setForking (some c) := by
  simp only [forkStart, bind_eq_done, assert_eq_done, pure_eq_done, done.injEq] at h
  rcases h with ⟨_, _, rfl⟩
  have hm : (k.machine.setProc c (allocProc stride priority)).setProc c
      { (k.machine.setProc c (allocProc stride priority)).proc c with
        parent := some (k.machine.setProc c (allocProc stride priority)).current } =
      k.machine.setProc c (childProc k stride priority) := by
    simp [Machine.setProc, childProc, Kern.current]
  rw [hm]

theorem Table.child {stride priority : UInt32} (h : Table k) (hc : c ∉ k.alive)
    (hcur : c ≠ k.current) (hmember : ¬ k.Member c) :
    Table (({ k.setMachine (k.machine.setProc c (childProc k stride priority)) with
      alive := insert c k.alive } : Kern).setForking (some c)) := by
  let m := k.machine.setProc c (childProc k stride priority)
  have hother : ∀ p, p ≠ c → m.proc p = k.machine.proc p := fun p hp =>
    Function.update_of_ne hp _ _
  have hself : m.proc c = childProc k stride priority := Function.update_self _ _ _
  have hne : ∀ p, k.Member p → p ≠ c := fun p hp hn => hmember (hn ▸ hp)
  have hlist : ∀ p ∈ k.procList, m.proc p = k.machine.proc p := fun p hp =>
    hother p (hne p (Or.inl hp))
  have hidle : m.proc k.machine.idleproc = k.machine.proc k.machine.idleproc :=
    hother _ (hne _ (Or.inr rfl))
  have hctx := setForking_ctx ({ k.setMachine m with alive := insert c k.alive } : Kern) (some c)
  refine ⟨h.nodup, fun i => ?_, fun p hp => ?_, h.count, ?_, ?_, fun p hp => ?_, fun p hp hm => ?_,
    fun p hp => ?_, fun p c' hc' => ?_, fun hr => ?_, h.current, fun i hi => ?_⟩
  · refine (h.hash i).trans (List.filter_congr fun p hp => ?_)
    change decide (_ = i) = decide (pidHashfn (m.proc p).pid = i)
    rw [hlist p hp]
  · change p ∈ insert c k.alive ∧ 1 ≤ (m.proc p).pid ∧ p ≠ k.machine.idleproc
    rw [hlist p hp]
    exact ⟨Finset.mem_insert_of_mem (h.listed p hp).1, (h.listed p hp).2⟩
  · refine ⟨h.pids.1, ?_⟩
    have hmap : (k.procList.map fun p => (m.proc p).pid) =
        k.procList.map fun p => (k.machine.proc p).pid :=
      List.map_congr_left fun p hp => by rw [hlist p hp]
    change PidGap (k.procList.map fun p => (m.proc p).pid) k.lastPid k.nextSafe
    rw [hmap]
    exact h.pids.2
  · refine ⟨?_, (hctx _).1.trans h.idle.2⟩
    change (m.proc k.machine.idleproc).pid = 0
    rw [hidle]
    exact h.idle.1
  · rw [(hctx p).1]
    change (k.ctx p).call.Allows (m.proc p)
    rw [hother p (hne p hp)]
    exact h.status p hp
  · change (m.proc p).state = _ ∧ (m.proc p).pid = _
    by_cases hpc : p = c
    · rw [hpc, hself]
      exact ⟨rfl, rfl⟩
    · rw [hother p hpc]
      exact h.rest p ((Finset.mem_insert.1 hp).resolve_left hpc) hm
  · have hpcur : p ≠ k.current := fun hn => hp (hn ▸ h.current)
    exact (Function.update_of_ne hpcur _ _).trans (h.quiet p hp)
  · rw [(hctx p).2.2] at hc'
    change (if p = k.current then some c else (k.ctx p).forking) = some c' at hc'
    change c' ∈ insert c k.alive ∧ ¬ k.Member c' ∧ (m.proc c').parent = some p
    by_cases hpcur : p = k.current
    · rw [if_pos hpcur] at hc'
      cases hc'
      rw [hself, hpcur]
      exact ⟨Finset.mem_insert_self c _, hmember, rfl⟩
    · rw [if_neg hpcur] at hc'
      rcases h.forking p c' hc' with ⟨halive, hm, hparent⟩
      rw [hother c' fun hn => hc (hn ▸ halive)]
      exact ⟨Finset.mem_insert_of_mem halive, hm, hparent⟩
  · have hr' : (k.ctx k.current).switched = true := (hctx k.current).2.1.symm.trans hr
    change (m.proc k.current).state = _
    rw [hother _ hcur.symm]
    exact h.running hr'
  · change i ∈ k.procList ∧ (m.proc i).state ≠ _
    rw [hlist i (h.init i hi).1]
    exact h.init i hi

/-- A child is being made. -/
theorem KernInv.forkStart {stride priority : UInt32} (h : KernInv none k) (hc : c ∉ k.alive)
    (hfork : TriOS.forkStart k c stride priority = done t) : KernInv none t := by
  have hcur : c ≠ k.current := fun hn => hc (hn ▸ h.sched.current)
  have hmember : ¬ k.Member c := fun hn => hc (h.table.member_alive h.sched hn)
  rw [forkStart_eq hfork]
  have hother : ∀ p, p ≠ c →
      (k.machine.setProc c (childProc k stride priority)).proc p = k.machine.proc p :=
    fun p hp => Function.update_of_ne hp _ _
  have hself : (k.machine.setProc c (childProc k stride priority)).proc c =
      childProc k stride priority := Function.update_self _ _ _
  have hlist : ∀ p ∈ k.procList, p ≠ c := fun p hp hn => hmember (Or.inl (hn ▸ hp))
  have hctx := setForking_ctx ({ k.setMachine (k.machine.setProc c (childProc k stride priority)) with
    alive := insert c k.alive } : Kern) (some c)
  rcases h.family with ⟨before, kids, hfamily⟩
  rcases h.pending with ⟨queue, a, d, hpending⟩
  have hkids : ∀ x, c ∉ kids x := fun x hx => hlist c ((hfamily.child c).2 ⟨x, hx⟩) rfl
  refine ⟨?_, ?_, ⟨before, kids, ?_⟩, queue, a, d, ?_⟩
  · have h1 := h.sched.alloc hc stride priority
    refine h1.other (fun p => ?_)
    by_cases hp : p = c
    · simp [Machine.setProc, childProc, hp]
    · simp [Machine.setProc, hp]
  · exact h.table.child hc hcur hmember
  · refine ⟨?_, hfamily.before, hfamily.child, fun q hq => ?_⟩
    · have htree := hfamily.tree.fresh hc hkids (by rw [hself]; rfl) hother
      refine htree.congr (fun q hq => Finset.mem_insert.1 hq)
        (fun q hq => Finset.mem_insert_of_mem (hfamily.tree.owner q hq)) fun x => ⟨rfl, rfl, rfl, rfl⟩
    · rcases hfamily.parents q hq with ⟨hm, hz⟩
      refine ⟨hm, ?_⟩
      have hqc : q ≠ c := fun hn => hmember (hn ▸ hm)
      change (((k.machine.setProc c _).proc q).state ≠ _) ∨ _
      rwa [hother q hqc]
  · refine hpending.frame rfl rfl (fun p _ _ => ?_) (fun p _ => ?_) fun p hp => ?_
    · exact iff_of_eq (congrArg (· = _) (hctx p).1)
    · exact iff_of_eq (congrArg (· = _) (hctx p).1)
    · have hpc := hlist p (h.table.listed_of_waits hp)
      change ((k.machine.setProc c _).proc p).state = _ ∧ ((k.machine.setProc c _).proc p).waitState = _
      rw [hother p hpc]
      exact ⟨rfl, rfl⟩

/-- The child is given up before it is listed. -/
theorem KernInv.forkFail (h : KernInv none k) (hc : (k.ctx k.current).forking = some c) :
    KernInv none (TriOS.forkFail k c) := by
  rcases h.table.forking k.current c hc with ⟨halive, hmember, hparent⟩
  have hne : ∀ p, k.Member p → p ≠ c := fun p hp hn => hmember (hn ▸ hp)
  have hctx := setForking_ctx { k with alive := k.alive.erase c } none
  have hforking : ∀ p, ((TriOS.forkFail k c).ctx p).forking =
      if p = k.current then none else (k.ctx p).forking := fun p => (hctx p).2.2
  rcases h.family with ⟨before, kids, hfamily⟩
  rcases h.pending with ⟨queue, a, d, hpending⟩
  refine ⟨?_, ?_, ⟨before, kids, ?_⟩, queue, a, d, ?_⟩
  · refine h.sched.free (hne _ h.table.current).symm (hne _ (Or.inr rfl)).symm ?_
    intro hrun
    have huninit := (h.table.rest c halive hmember).1
    exact absurd (hrun.symm.trans huninit) (by decide)
  · refine ⟨h.table.nodup, h.table.hash, fun p hp => ?_, h.table.count, h.table.pids,
      ⟨h.table.idle.1, (hctx _).1.trans h.table.idle.2⟩, fun p hp => ?_,
      fun p hp hm => h.table.rest p (Finset.mem_of_mem_erase hp) hm, fun p hp => ?_,
      fun p c' hc' => ?_, fun hr => h.table.running ((hctx _).2.1.symm.trans hr), h.table.current,
      h.table.init⟩
    · exact ⟨Finset.mem_erase.2 ⟨hne p (Or.inl hp), (h.table.listed p hp).1⟩,
        (h.table.listed p hp).2⟩
    · have hcall : ((TriOS.forkFail k c).ctx p).call = (k.ctx p).call := (hctx p).1
      rw [hcall]
      exact h.table.status p hp
    · have hpcur : p ≠ k.current := fun hn => hp (hn ▸ h.table.current)
      exact (Function.update_of_ne hpcur _ _).trans (h.table.quiet p hp)
    · rw [hforking] at hc'
      by_cases hpcur : p = k.current
      · rw [if_pos hpcur] at hc'
        cases hc'
      · rw [if_neg hpcur] at hc'
        rcases h.table.forking p c' hc' with ⟨halive', hm', hparent'⟩
        refine ⟨Finset.mem_erase.2 ⟨?_, halive'⟩, hm', hparent'⟩
        rintro rfl
        exact hpcur (Option.some.inj (hparent'.symm.trans hparent))
  · refine ⟨?_, hfamily.before, hfamily.child, hfamily.parents⟩
    refine hfamily.tree.congr (fun q hq => Finset.mem_of_mem_erase hq) (fun q hq => ?_)
      fun x => ⟨rfl, rfl, rfl, rfl⟩
    exact Finset.mem_erase.2 ⟨hne q (hfamily.parents q hq).1, hfamily.tree.owner q hq⟩
  · exact hpending.frame rfl rfl (fun p _ _ => iff_of_eq (congrArg (· = _) (hctx p).1))
      (fun p _ => iff_of_eq (congrArg (· = _) (hctx p).1)) fun p _ => ⟨rfl, rfl⟩

/-- What `do_fork` does from `get_pid` to `wakeup_proc`. -/
structure Linking (k : Kern) (c : Nat) (t : Kern) (kids : Nat → List Nat) : Prop where
  lists : t.procList = c :: k.procList ∧ t.hashList = hashProc k.hashList c t.lastPid ∧
    t.alive = k.alive ∧ t.initproc = k.initproc ∧ t.nrProcess = k.nrProcess + 1
  same : t.sync.waits = k.sync.waits ∧ t.timers = k.timers
  machine : t.machine.idleproc = k.machine.idleproc ∧ t.current = k.current
  fresh : 1 ≤ t.lastPid ∧ (∀ p ∈ k.procList, (k.machine.proc p).pid ≠ t.lastPid) ∧
    PidGap (k.procList.map fun p => (k.machine.proc p).pid) t.lastPid t.nextSafe
  child : (t.machine.proc c).state = ProcState.runnable ∧ (t.machine.proc c).waitState = 0 ∧
    (t.machine.proc c).pid = t.lastPid
  parent : ∀ p, (t.machine.proc p).parent = (k.machine.proc p).parent
  exitCode : ∀ p, (t.machine.proc p).exitCode = (k.machine.proc p).exitCode
  others : ∀ p, p ≠ c → (t.machine.proc p).state = (k.machine.proc p).state ∧
    (t.machine.proc p).waitState = (k.machine.proc p).waitState ∧
    (t.machine.proc p).pid = (k.machine.proc p).pid
  ctx : ∀ p, t.ctx p = (k.setForking none).ctx p
  sched : SchedInv ⟨t.machine, t.alive⟩
  tree : Tree t.machine.proc (· ∈ t.alive) (fun _ => none)
    (Function.update kids k.current (c :: kids k.current))

/-- The pid that `get_pid` returns belongs to no process. -/
theorem Table.pid_fresh (h : Table k) {last safe : Int}
    (hget : getPid bound (k.procList.map fun p => (k.machine.proc p).pid) k.lastPid k.nextSafe =
      done (last, safe)) :
    1 ≤ last ∧ (∀ p ∈ k.alive, (k.machine.proc p).pid ≠ last) ∧
      PidGap (k.procList.map fun p => (k.machine.proc p).pid) last safe := by
  rcases getPid_spec h.pids.1 h.pids.2 hget with ⟨hpos, hfresh, hgap⟩
  refine ⟨hpos, fun p hp hpid => ?_, hgap⟩
  by_cases hm : k.Member p
  · rcases hm with hm | hm
    · exact hfresh (hpid ▸ List.mem_map_of_mem hm)
    · have hidle := h.idle.1
      rw [← hm, hpid] at hidle
      omega
  · have hrest := (h.rest p hp hm).2
    rw [hpid] at hrest
    omega

/-- The new child is linked into the lists and the tree, and made runnable. -/
theorem KernInv.linking (h : KernInv none k) (hc : (k.ctx k.current).forking = some c)
    (hfamily : Family k none before kids) (hlink : forkLink bound k c = done t) :
    Linking k c t kids := by
  rcases h.table.forking k.current c hc with ⟨halive, hmember, hparent⟩
  have huninit := (h.table.rest c halive hmember).1
  have hcur : c ≠ k.current := fun hn => hmember (hn ▸ h.table.current)
  have hidle : c ≠ k.machine.idleproc := fun hn => hmember (Or.inr hn)
  have hbefore : before = fun _ => none := funext fun q => hfamily.before q (by simp)
  subst hbefore
  simp only [forkLink, bind_eq_done, pure_eq_done, done.injEq, Prod.exists] at hlink
  rcases hlink with ⟨last, safe, hget, procs, hprocs, m, hwake, rfl⟩
  rcases h.table.pid_fresh hget with ⟨hpos, hfresh, hgap⟩
  let m1 := k.machine.setProc c { k.machine.proc c with pid := last }
  have hself : m1.proc c = { k.machine.proc c with pid := last } := Function.update_self _ _ _
  have hother : ∀ p, p ≠ c → m1.proc p = k.machine.proc p := fun p hp =>
    Function.update_of_ne hp _ _
  have hs1 : SchedInv ⟨m1, k.alive⟩ :=
    h.sched.setPid halive huninit (fun p hp _ => hfresh p hp) hcur hidle
  -- The tree without the child, which is no member of it yet.
  have hkids : ∀ x, c ∉ kids x := fun x hx => hmember (Or.inl ((hfamily.child c).2 ⟨x, hx⟩))
  have hckids : kids c = [] := by
    by_contra hn
    exact hmember (hfamily.parents c hn).1
  have hlinks : ∀ x, (m1.proc x).parent = (k.machine.proc x).parent ∧
      (m1.proc x).cptr = (k.machine.proc x).cptr ∧ (m1.proc x).yptr = (k.machine.proc x).yptr ∧
      (m1.proc x).optr = (k.machine.proc x).optr := by
    intro x
    by_cases hx : x = c
    · rw [hx, hself]
      exact ⟨rfl, rfl, rfl, rfl⟩
    · rw [hother x hx]
      exact ⟨rfl, rfl, rfl, rfl⟩
  have htree1 : Tree m1.proc (fun x => x ∈ k.alive ∧ x ≠ c) (fun _ => none) kids :=
    hfamily.tree.congr (fun q hq => hq.1)
      (fun q hq => ⟨hfamily.tree.owner q hq, fun hn => hq (hn ▸ hckids)⟩) hlinks
  have hcptr : (m1.proc c).cptr = none := by
    rw [(hlinks c).2.1]
    have hlinked := hfamily.tree.linked c halive
    rw [hckids] at hlinked
    exact hlinked
  rcases htree1.link ((hlinks c).1.trans hparent) ⟨h.sched.current, hcur.symm⟩ (fun hn => hn.2 rfl)
    hkids hcptr with ⟨procs', hprocs', htree2, hpar, hbody⟩
  cases Outcome.done.inj (hprocs'.symm.trans hprocs)
  let m2 : Machine RunQueue := { m1 with proc := procs }
  have hs2 : SchedInv ⟨m2, k.alive⟩ := by
    refine hs1.other fun p => ?_
    rcases (hbody p).fields with ⟨hstate, hpid, hrun, _⟩
    exact ⟨hstate, hpid, hrun⟩
  have hpid2 : (m2.proc c).pid = last := by
    change (procs c).pid = last
    rw [(hbody c).fields.2.1, hself]
  have hstate2 : (m2.proc c).state = ProcState.uninit := by
    change (procs c).state = _
    rw [(hbody c).fields.1, hself]
    exact huninit
  have hs3 : SchedInv ⟨m, k.alive⟩ := hs2.wakeup halive (by rw [hpid2]; omega) hwake
  -- `wakeup_proc` queues the child.
  have hm : SameProcs (m2.setProc c
      { m2.proc c with state := ProcState.runnable, waitState := 0 }) m := by
    rcases (wakeupProc_inv hwake).2 with ⟨hrun, _⟩ | ⟨_, m3, rfl, ⟨_, rfl⟩ | ⟨_, rfl⟩⟩
    · exact absurd (hstate2.symm.trans hrun) (by decide)
    · exact sameProcs_enqueue _ _
    · exact SameProcs.refl _
  have hproc : ∀ p, p ≠ c → ∃ r, m.proc p = { procs p with run := r } := by
    intro p hp
    rcases hm.proc p with ⟨r, hr⟩
    refine ⟨r, ?_⟩
    rw [hr]
    simp [Machine.setProc, hp, m2]
  have hprocc : ∃ r, m.proc c =
      { procs c with state := ProcState.runnable, waitState := 0, run := r } := by
    rcases hm.proc c with ⟨r, hr⟩
    refine ⟨r, ?_⟩
    rw [hr]
    simp [Machine.setProc, m2]
  have hlinks3 : ∀ x, (m.proc x).parent = (procs x).parent ∧ (m.proc x).cptr = (procs x).cptr ∧
      (m.proc x).yptr = (procs x).yptr ∧ (m.proc x).optr = (procs x).optr := by
    intro x
    by_cases hx : x = c
    · rcases hprocc with ⟨r, hr⟩
      rw [hx, hr]
      exact ⟨rfl, rfl, rfl, rfl⟩
    · rcases hproc x hx with ⟨r, hr⟩
      rw [hr]
      exact ⟨rfl, rfl, rfl, rfl⟩
  refine ⟨⟨rfl, rfl, rfl, rfl, rfl⟩, ⟨rfl, rfl⟩, ⟨hm.idleproc, hm.current⟩,
    ⟨hpos, fun p hp => hfresh p (h.table.listed p hp).1, hgap⟩, ?_, fun p => ?_, fun p => ?_,
    fun p hp => ?_, fun p => ?_, hs3, ?_⟩
  · rcases hprocc with ⟨r, hr⟩
    change (m.proc c).state = _ ∧ (m.proc c).waitState = 0 ∧ (m.proc c).pid = last
    rw [hr]
    exact ⟨rfl, rfl, hpid2⟩
  · exact (hlinks3 p).1.trans ((hpar p).trans (hlinks p).1)
  · have hcode : (m.proc p).exitCode = (procs p).exitCode := by
      by_cases hp : p = c
      · rcases hprocc with ⟨r, hr⟩
        rw [hp, hr]
      · rcases hproc p hp with ⟨r, hr⟩
        rw [hr]
    have hcode1 : (m1.proc p).exitCode = (k.machine.proc p).exitCode := by
      by_cases hp : p = c
      · rw [hp, hself]
      · rw [hother p hp]
    exact hcode.trans ((hbody p).fields.2.2.2.2.trans hcode1)
  · rcases hproc p hp with ⟨r, hr⟩
    change (m.proc p).state = _ ∧ (m.proc p).waitState = _ ∧ (m.proc p).pid = _
    rcases (hbody p).fields with ⟨hstate, hpid, _, hwait, _⟩
    rw [hother p hp] at hstate hpid hwait
    rw [hr]
    exact ⟨hstate, hwait, hpid⟩
  · have hcm : m.current = k.current := hm.current
    change Function.update k.ctx m.current { k.ctx m.current with forking := none } p =
      Function.update k.ctx k.current { k.ctx k.current with forking := none } p
    rw [hcm]
  · refine htree2.congr (fun q hq => ?_) (fun q hq => ?_) hlinks3
    · by_cases hqc : q = c
      · exact Or.inl hqc
      · exact Or.inr ⟨hq, hqc⟩
    · rcases htree2.owner q hq with rfl | hq
      · exact halive
      · exact hq.1

theorem Linking.table (hl : Linking k c t kids) (h : Table k)
    (hc : (k.ctx k.current).forking = some c) : Table t := by
  rcases h.forking k.current c hc with ⟨halive, hmember, hparent⟩
  rcases hl.lists with ⟨hprocList, hhashList, halives, hinit, hcount⟩
  have hne : ∀ p, k.Member p → p ≠ c := fun p hp hn => hmember (hn ▸ hp)
  have hctx : ∀ p, (t.ctx p).call = (k.ctx p).call ∧ (t.ctx p).switched = (k.ctx p).switched ∧
      (t.ctx p).forking = if p = k.current then none else (k.ctx p).forking := by
    intro p
    rw [hl.ctx p]
    exact setForking_ctx k none p
  have hmem : ∀ p, t.Member p ↔ p = c ∨ k.Member p := by
    intro p
    unfold Kern.Member
    rw [hprocList, hl.machine.1, List.mem_cons, or_assoc]
  have hpid : ∀ p ∈ k.procList, (t.machine.proc p).pid = (k.machine.proc p).pid := fun p hp =>
    (hl.others p (hne p (Or.inl hp))).2.2
  refine ⟨?_, fun i => ?_, fun p hp => ?_, ?_, ⟨hl.fresh.1, ?_⟩, ?_, fun p hp => ?_,
    fun p hp hm => ?_, fun p hp => ?_, fun p c' hc' => ?_, fun hr => ?_, ?_, fun i hi => ?_⟩
  · rw [hprocList]
    exact List.nodup_cons.2 ⟨fun hn => hmember (Or.inl hn), h.nodup⟩
  · have hrest : (k.procList.filter fun p => pidHashfn (t.machine.proc p).pid = i) =
        k.hashList i := by
      rw [h.hash]
      refine List.filter_congr fun p hp => ?_
      rw [hpid p hp]
    rw [hhashList, hprocList, hashProc, List.filter_cons, hl.child.2.2, hrest]
    by_cases hi : i = pidHashfn t.lastPid
    · subst hi
      simp
    · rw [Function.update_of_ne hi, if_neg (by simpa using fun hn => hi (Eq.symm hn))]
  · rw [hprocList] at hp
    rw [halives, hl.machine.1]
    rcases List.mem_cons.1 hp with rfl | hp
    · rw [hl.child.2.2]
      exact ⟨halive, hl.fresh.1, fun hn => hmember (Or.inr hn)⟩
    · rw [hpid p hp]
      exact h.listed p hp
  · rw [hcount, hprocList, h.count, List.length_cons]
    push_cast
    ring
  · rw [hprocList, List.map_cons, hl.child.2.2, List.map_congr_left hpid]
    intro pid hp
    rcases List.mem_cons.1 hp with rfl | hp
    · exact Or.inl le_rfl
    · exact hl.fresh.2.2 pid hp
  · rw [hl.machine.1, (hctx _).1, (hl.others _ (hne _ (Or.inr rfl))).2.2]
    exact h.idle
  · rw [(hctx p).1]
    rcases (hmem p).1 hp with rfl | hp
    · rw [h.quiet p hmember]
      exact ⟨hl.child.1, hl.child.2.1⟩
    · have hother := hl.others p (hne p hp)
      exact (h.status p hp).congr hother.1 hother.2.1
  · rw [hmem, not_or] at hm
    rw [halives] at hp
    rw [(hl.others p hm.1).1, (hl.others p hm.1).2.2]
    exact h.rest p hp hm.2
  · rw [hmem, not_or] at hp
    rw [hl.ctx p]
    have hpcur : p ≠ k.current := fun hn => hp.2 (hn ▸ h.current)
    exact (Function.update_of_ne hpcur _ _).trans (h.quiet p hp.2)
  · rw [(hctx p).2.2] at hc'
    by_cases hpcur : p = k.current
    · rw [if_pos hpcur] at hc'
      cases hc'
    · rw [if_neg hpcur] at hc'
      rcases h.forking p c' hc' with ⟨halive', hm', hparent'⟩
      rw [halives, hmem, hl.parent, not_or]
      refine ⟨halive', ⟨?_, hm'⟩, hparent'⟩
      rintro rfl
      exact hpcur (Option.some.inj (hparent'.symm.trans hparent))
  · rw [hl.machine.2, (hctx _).2.1] at hr
    rw [hl.machine.2, (hl.others _ (hne _ h.current)).1]
    exact h.running hr
  · rw [hl.machine.2, hmem]
    exact Or.inr h.current
  · rw [hinit] at hi
    rcases h.init i hi with ⟨hlist, hz⟩
    rw [hprocList, (hl.others i (hne i (Or.inl hlist))).1]
    exact ⟨List.mem_cons_of_mem _ hlist, hz⟩

theorem Linking.family (hl : Linking k c t kids) (h : Family k none before kids) (htable : Table k)
    (hrun : (k.machine.proc k.current).state = ProcState.runnable)
    (hc : (k.ctx k.current).forking = some c) :
    Family t none (fun _ => none) (Function.update kids k.current (c :: kids k.current)) := by
  rcases htable.forking k.current c hc with ⟨halive, hmember, hparent⟩
  have hne : ∀ p, k.Member p → p ≠ c := fun p hp hn => hmember (hn ▸ hp)
  refine ⟨hl.tree, fun _ _ => rfl, fun p => ?_, fun q hq => ?_⟩
  · rw [hl.lists.1, List.mem_cons, h.child]
    constructor
    · rintro (rfl | ⟨q, hq⟩)
      · exact ⟨k.current, by rw [Function.update_self]; exact List.mem_cons_self⟩
      · refine ⟨q, ?_⟩
        by_cases hqc : q = k.current
        · rw [hqc, Function.update_self]
          exact List.mem_cons_of_mem _ (hqc ▸ hq)
        · rwa [Function.update_of_ne hqc]
    · rintro ⟨q, hq⟩
      by_cases hqc : q = k.current
      · rw [hqc, Function.update_self] at hq
        exact (List.mem_cons.1 hq).imp_right fun hq => ⟨_, hq⟩
      · rw [Function.update_of_ne hqc] at hq
        exact Or.inr ⟨q, hq⟩
  · have hq' : k.Member q ∧ (k.machine.proc q).state ≠ ProcState.zombie := by
      by_cases hqc : q = k.current
      · rw [hqc, hrun]
        exact ⟨htable.current, by decide⟩
      · rw [Function.update_of_ne hqc] at hq
        exact ⟨(h.parents q hq).1, (h.parents q hq).2.resolve_right (by simp)⟩
    refine ⟨?_, Or.inl ?_⟩
    · unfold Kern.Member
      rw [hl.lists.1, hl.machine.1]
      exact hq'.1.imp_left (List.mem_cons_of_mem _)
    · rw [(hl.others q (hne q hq'.1)).1]
      exact hq'.2

/-- `do_fork` from `get_pid` to `wakeup_proc`. -/
theorem KernInv.forkLink (h : KernInv none k) (hc : (k.ctx k.current).forking = some c)
    (huser : k.InUser) (hlink : TriOS.forkLink bound k c = done t) :
    KernInv none t ∧ ∃ kids, Linking k c t kids := by
  rcases h.family with ⟨before, kids, hfamily⟩
  rcases h.pending with ⟨queue, a, d, hpending⟩
  rcases h.table.forking k.current c hc with ⟨_, hmember, _⟩
  have hl := h.linking hc hfamily hlink
  have hcall : ∀ p, (t.ctx p).call = (k.ctx p).call := by
    intro p
    rw [hl.ctx p]
    exact (setForking_ctx k none p).1
  refine ⟨⟨hl.sched, hl.table h.table hc,
    ⟨_, _, hl.family hfamily h.table (h.table.runs (Or.inl huser)).1 hc⟩, queue, a, d, ?_⟩, kids, hl⟩
  refine hpending.frame hl.same.1 hl.same.2 (fun p _ _ => ?_) (fun p _ => ?_) fun p hp => ?_
  · rw [hcall]
  · rw [hcall]
  · have hpc : p ≠ c := fun hn => hmember (Or.inl (hn ▸ h.table.listed_of_waits hp))
    exact ⟨(hl.others p hpc).1, (hl.others p hpc).2.1⟩

/-- The parent of a child that is being made. -/
theorem forkStart_current {stride priority : UInt32} (huser : k.InUser)
    (hstart : forkStart k c stride priority = done t) :
    (t.ctx t.current).forking = some c ∧ t.InUser := by
  have hctx := setForking_ctx ({ k.setMachine (k.machine.setProc c (childProc k stride priority)) with
    alive := insert c k.alive } : Kern) (some c)
  have hcur : t.current = k.current := by
    rw [forkStart_eq hstart]
    rfl
  unfold Kern.InUser
  rw [hcur, forkStart_eq hstart, (hctx _).2.2, (hctx _).1]
  exact ⟨if_pos rfl, huser⟩

/-- The end of `proc_init`. -/
theorem KernInv.makeInit {stride priority : UInt32} (h : KernInv none k) (huser : k.InUser)
    (hc : c ∉ k.alive) (hinit : TriOS.makeInit bound k c stride priority = done t) :
    KernInv none t := by
  simp only [TriOS.makeInit, bind_eq_done, assert_eq_done, pure_eq_done, done.injEq] at hinit
  rcases hinit with ⟨k1, hstart, k2, hlink, _, hpid, rfl⟩
  have h1 := h.forkStart hc hstart
  rcases forkStart_current huser hstart with ⟨hforking, huser1⟩
  rcases h1.forkLink hforking huser1 hlink with ⟨h2, kids, hl⟩
  rcases h1.table.forking k1.current c hforking with ⟨halive, _, _⟩
  have htable : Table { k2 with initproc := TriOS.findProc k2 k2.lastPid } := by
    refine { h2.table with init := fun i hi => ?_ }
    rcases h2.table.findProc hi with ⟨hlist, hipid⟩
    refine ⟨hlist, ?_⟩
    -- Only the child has the pid that was given out last.
    have hic : i = c := by
      refine h2.sched.pids i (h2.table.listed i hlist).1 c ?_ ?_ (h2.table.member_pid (Or.inl hlist))
      · change c ∈ k2.alive
        rw [hl.lists.2.2.1]
        exact halive
      · exact hipid.trans hl.child.2.2.symm
    change (k2.machine.proc i).state ≠ _
    rw [hic, hl.child.1]
    decide
  rcases h2.family with ⟨before, kids', hfamily⟩
  rcases h2.pending with ⟨queue, a, d, hpending⟩
  exact ⟨h2.sched, htable, ⟨before, kids', hfamily.tree, hfamily.before, hfamily.child,
    hfamily.parents⟩, queue, a, d, hpending.waiting, hpending.tracks, hpending.timer,
    hpending.placed⟩

/-! ## do_exit -/

/-- `wakeup_proc` leaves the other processes alone. -/
theorem wakeupProc_frame {m' : Machine RunQueue}
    (h : wakeupProc defaultSchedClass m p = done m') (hq : q ≠ p) :
    (m'.proc q).state = (m.proc q).state ∧ (m'.proc q).waitState = (m.proc q).waitState := by
  rcases wakeupProc_spec defaultSchedClass (wakeupProc_not_zombie h) with
    ⟨m1, hm1, _, _, _, _, _, hothers⟩
  cases Outcome.done.inj (hm1.symm.trans h)
  exact hothers q hq

/-- A member that waits for its children is in no `down`. -/
theorem Table.inDown_eq_none (h : Table k) (hp : k.Member p)
    (hwait : (k.machine.proc p).waitState = wtChild) : k.inDown p = none := by
  by_contra hc
  rcases inDown_ne_none.1 hc with ⟨sem, w, hcall⟩
  have hstatus := h.status p hp
  rw [hcall] at hstatus
  rcases hstatus with ⟨_, hw⟩ | ⟨_, hw⟩
  · exact absurd (hwait.symm.trans hw) (by decide)
  · exact absurd (hwait.symm.trans hw) (by decide)

theorem Table.not_uninit (h : Table k) (hp : k.Member p) :
    (k.machine.proc p).state ≠ ProcState.uninit :=
  (h.status p hp).not_uninit

/-- A process that is in no `down` is woken. -/
theorem KernInv.wakeOne (h : KernInv exiting k) (hp : k.Member p) (hdown : k.inDown p = none)
    (hwake : wakeupProc defaultSchedClass k.machine p = done m) :
    KernInv exiting (k.setMachine m) := by
  refine h.wakeMachine (awakes_wakeupProc hwake (h.table.not_uninit hp)) ?_ fun q hq => ?_
  · exact h.sched.wakeup (h.table.member_alive h.sched hp) (h.table.member_pid hp) hwake
  · refine wakeupProc_frame hwake ?_
    rintro rfl
    exact hq hdown

theorem wakeIfWaiting_awakes (h : Table k) (hp : k.Member p)
    (hwake : wakeIfWaiting k.machine p = done m) : Awakes k.machine m := by
  unfold wakeIfWaiting at hwake
  by_cases hw : (k.machine.proc p).waitState = wtChild
  · rw [if_pos hw] at hwake
    exact awakes_wakeupProc hwake (h.not_uninit hp)
  · rw [if_neg hw] at hwake
    cases hwake
    exact Awakes.refl _

theorem KernInv.wakeIfWaiting (h : KernInv exiting k) (hp : k.Member p)
    (hwake : TriOS.wakeIfWaiting k.machine p = done m) : KernInv exiting (k.setMachine m) := by
  unfold TriOS.wakeIfWaiting at hwake
  by_cases hw : (k.machine.proc p).waitState = wtChild
  · rw [if_pos hw] at hwake
    exact h.wakeOne hp (h.table.inDown_eq_none hp hw) hwake
  · rw [if_neg hw] at hwake
    cases hwake
    exact h

/-- The current process becomes a zombie. -/
theorem KernInv.zombie (h : KernInv none k) {code : Int}
    (hcall : (∀ sem w, (k.ctx k.current).call ≠ Call.down sem w) ∧
      ∀ timer, (k.ctx k.current).call ≠ Call.sleep timer)
    (hidle : k.current ≠ k.machine.idleproc) (hinit : some k.current ≠ k.initproc) :
    KernInv (some k.current) ((k.setMachine (k.machine.setProc k.current
      { k.machine.proc k.current with state := ProcState.zombie, exitCode := code })).enter
        Call.exited) := by
  let m := k.machine.setProc k.current
    { k.machine.proc k.current with state := ProcState.zombie, exitCode := code }
  have hother : ∀ p, p ≠ k.current → m.proc p = k.machine.proc p := fun p hp =>
    Function.update_of_ne hp _ _
  have hself : m.proc k.current =
      { k.machine.proc k.current with state := ProcState.zombie, exitCode := code } :=
    Function.update_self _ _ _
  have hctx : ∀ p, ((k.setMachine m).enter Call.exited).ctx p =
      if p = k.current then { k.ctx k.current with call := Call.exited, switched := false }
      else k.ctx p := fun p => Function.update_apply _ _ _ _
  rcases h.family with ⟨before, kids, hfamily⟩
  rcases h.pending with ⟨queue, a, d, hpending⟩
  refine ⟨?_, ?_, ⟨before, kids, ?_⟩, queue, a, d, ?_⟩
  · exact h.sched.setState rfl fun hc => by cases hc
  · exact h.table.enter rfl rfl rfl (fun hc => absurd hc hidle) fun hc => absurd hc hinit
  · refine ⟨?_, fun q _ => hfamily.before q (by simp), hfamily.child, fun q hq => ?_⟩
    · refine hfamily.tree.congr (fun q hq => hq) hfamily.tree.owner fun x => ?_
      change (m.proc x).parent = _ ∧ (m.proc x).cptr = _ ∧ (m.proc x).yptr = _ ∧ (m.proc x).optr = _
      by_cases hx : x = k.current
      · rw [hx, hself]
        exact ⟨rfl, rfl, rfl, rfl⟩
      · rw [hother x hx]
        exact ⟨rfl, rfl, rfl, rfl⟩
    · refine ⟨(hfamily.parents q hq).1, ?_⟩
      by_cases hqc : q = k.current
      · exact Or.inr (congrArg some hqc)
      · refine Or.inl ?_
        change (m.proc q).state ≠ _
        rw [hother q hqc]
        exact (hfamily.parents q hq).2.resolve_right (by simp)
  · refine hpending.frame rfl rfl (fun p sem w => ?_) (fun p timer => ?_) fun p hp => ?_
    · rw [hctx]
      by_cases hpc : p = k.current
      · rw [if_pos hpc, hpc]
        exact ⟨fun hc => by (cases hc), fun hc => absurd hc (hcall.1 sem w)⟩
      · rw [if_neg hpc]
    · rw [hctx]
      by_cases hpc : p = k.current
      · rw [if_pos hpc, hpc]
        exact ⟨fun hc => by (cases hc), fun hc => absurd hc (hcall.2 timer)⟩
      · rw [if_neg hpc]
    · have hpc : p ≠ k.current := by
        rintro rfl
        rcases hp with ⟨sem, w, hc⟩ | ⟨timer, hc⟩
        · exact hcall.1 sem w hc
        · exact hcall.2 timer hc
      change (m.proc p).state = _ ∧ (m.proc p).waitState = _
      rw [hother p hpc]
      exact ⟨rfl, rfl⟩

/-- The state in a round of the loop after `initproc` has adopted the child. -/
def adopted (k : Kern) (init child : Nat) : Kern :=
  k.setMachine { k.machine with proc := adoptChild k.machine.proc k.current init child }

theorem KernInv.adopt {init child : Nat} (h : KernInv (some k.current) k)
    (hinit : k.initproc = some init) (hne : init ≠ k.current)
    (hcptr : (k.machine.proc k.current).cptr = some child) :
    KernInv (some k.current) (adopted k init child) := by
  rcases h.family with ⟨before, kids, hfamily⟩
  rcases h.pending with ⟨queue, a, d, hpending⟩
  rcases h.table.init init hinit with ⟨hlist, hz⟩
  have hbefore : before init = none := hfamily.before init fun hc => hne (Option.some.inj hc)
  have hlinked := hfamily.tree.linked k.current h.sched.current
  have hkids : ∃ rest, kids k.current = child :: rest := by
    cases hk : kids k.current with
    | nil =>
        rw [hk] at hlinked
        exact absurd (hcptr.symm.trans hlinked) (by simp)
    | cons x rest =>
        rw [hk] at hlinked
        have hx := hcptr.symm.trans hlinked.1
        cases hx
        exact ⟨rest, rfl⟩
  rcases hkids with ⟨rest, hkids⟩
  have hchild : child ∈ k.procList := (hfamily.child child).2 ⟨k.current, by simp [hkids]⟩
  rcases hfamily.tree.adopt hkids hne hbefore (h.table.listed init hlist).1 with
    ⟨htree, hparent, hbody⟩
  have hsame : ∀ p, (adoptChild k.machine.proc k.current init child p).state =
      (k.machine.proc p).state ∧
      (adoptChild k.machine.proc k.current init child p).waitState = (k.machine.proc p).waitState ∧
      (adoptChild k.machine.proc k.current init child p).pid = (k.machine.proc p).pid := by
    intro p
    rcases (hbody p).fields with ⟨hstate, hpid, _, hwait, _⟩
    exact ⟨hstate, hwait, hpid⟩
  refine ⟨?_, ?_, ⟨_, _, htree, fun q hq => ?_, fun p => ?_, fun q hq => ?_⟩, queue, a, d, ?_⟩
  · refine h.sched.other fun p => ?_
    rcases (hbody p).fields with ⟨hstate, hpid, hrun, _⟩
    exact ⟨hstate, hpid, hrun⟩
  · refine h.table.frame ⟨rfl, rfl, rfl, rfl, rfl, ⟨rfl, rfl⟩, rfl, fun p => (hsame p).2.2,
      fun _ => rfl, fun _ _ => rfl⟩ h.table.idle.2
      (fun p hp => (h.table.status p hp).congr (hsame p).1 (hsame p).2.1) (fun p _ hm => ?_)
      (fun hr => (hsame _).1.trans (h.table.running hr)) h.table.current
      fun p _ hnz hz' => hnz ((hsame p).1.symm.trans hz')
    refine ⟨(hsame p).1, ?_⟩
    have hpc : p ≠ child := by
      rintro rfl
      exact hm (Or.inl hchild)
    have hp := hparent p
    rwa [if_neg hpc] at hp
  · have hqc : q ≠ k.current := fun hc => hq (congrArg some hc)
    rw [Function.update_of_ne hqc]
    exact hfamily.before q hq
  · refine (hfamily.child p).trans ⟨?_, ?_⟩
    · rintro ⟨q, hq⟩
      by_cases hqc : q = k.current
      · subst hqc
        rw [hkids] at hq
        rcases List.mem_cons.1 hq with rfl | hq
        · exact ⟨init, by rw [Function.update_self]; exact List.mem_cons_self⟩
        · refine ⟨k.current, ?_⟩
          rwa [Function.update_of_ne hne.symm, Function.update_self]
      · refine ⟨q, ?_⟩
        by_cases hqi : q = init
        · rw [hqi, Function.update_self]
          exact List.mem_cons_of_mem _ (hqi ▸ hq)
        · rwa [Function.update_of_ne hqi, Function.update_of_ne hqc]
    · rintro ⟨q, hq⟩
      by_cases hqi : q = init
      · rw [hqi, Function.update_self] at hq
        rcases List.mem_cons.1 hq with rfl | hq
        · exact ⟨k.current, by simp [hkids]⟩
        · exact ⟨init, hq⟩
      · rw [Function.update_of_ne hqi] at hq
        by_cases hqc : q = k.current
        · rw [hqc, Function.update_self] at hq
          exact ⟨k.current, by simp [hkids, hq]⟩
        · rw [Function.update_of_ne hqc] at hq
          exact ⟨q, hq⟩
  · change k.Member q ∧ ((adoptChild k.machine.proc k.current init child q).state ≠ _ ∨ _)
    rw [(hsame q).1]
    by_cases hqi : q = init
    · rw [hqi]
      exact ⟨Or.inl hlist, Or.inl hz⟩
    · rw [Function.update_of_ne hqi] at hq
      by_cases hqc : q = k.current
      · rw [hqc]
        exact ⟨h.table.current, Or.inr rfl⟩
      · rw [Function.update_of_ne hqc] at hq
        exact hfamily.parents q hq
  · exact hpending.frame rfl rfl (fun _ _ _ => Iff.rfl) (fun _ _ => Iff.rfl)
      fun p _ => ⟨(hsame p).1, (hsame p).2.1⟩

/-- What every round of the loop of `do_exit` keeps holds at its end. -/
theorem reparent_rule (I : Machine RunQueue → Prop) {initproc : Option Nat} {m' : Machine RunQueue}
    (hround : ∀ m m2 child init, I m → initproc = some init → (m.proc m.current).cptr = some child →
      wakeForZombie { m with proc := adoptChild m.proc m.current init child } child init = done m2 →
      I m2)
    (h : I m) (hloop : reparent bound m initproc = done m') :
    I m' ∧ (m'.proc m'.current).cptr = none := by
  induction bound generalizing m with
  | zero => cases hloop
  | succ bound ih =>
      unfold reparent at hloop
      cases hcptr : (m.proc m.current).cptr with
      | none =>
          rw [hcptr] at hloop
          cases hloop
          exact ⟨h, hcptr⟩
      | some child =>
          rw [hcptr] at hloop
          cases hi : initproc with
          | none =>
              rw [hi] at hloop
              cases hloop
          | some init =>
              rw [hi] at hloop
              simp only [bind_eq_done] at hloop
              rcases hloop with ⟨m2, hwake, hloop⟩
              exact ih (hround m m2 child init h hi hcptr hwake) (hi ▸ hloop)

theorem wakeForZombie_awakes {child init : Nat} (h : Table k) (hp : k.Member init)
    (hwake : wakeForZombie k.machine child init = done m) : Awakes k.machine m := by
  unfold wakeForZombie at hwake
  by_cases hz : (k.machine.proc child).state = ProcState.zombie
  · rw [if_pos hz] at hwake
    exact wakeIfWaiting_awakes h hp hwake
  · rw [if_neg hz] at hwake
    cases hwake
    exact Awakes.refl _

theorem KernInv.wakeForZombie {child init : Nat} (h : KernInv exiting k) (hp : k.Member init)
    (hwake : TriOS.wakeForZombie k.machine child init = done m) :
    KernInv exiting (k.setMachine m) := by
  unfold TriOS.wakeForZombie at hwake
  by_cases hz : (k.machine.proc child).state = ProcState.zombie
  · rw [if_pos hz] at hwake
    exact h.wakeIfWaiting hp hwake
  · rw [if_neg hz] at hwake
    cases hwake
    exact h

/-- One round of the loop of `do_exit`. -/
theorem KernInv.round {child init : Nat} (h : KernInv (some p) k) (hcur : k.current = p)
    (hinit : k.initproc = some init) (hne : init ≠ p)
    (hcptr : (k.machine.proc k.current).cptr = some child)
    (hwake : TriOS.wakeForZombie (adopted k init child).machine child init = done m) :
    KernInv (some p) (k.setMachine m) ∧ m.current = p := by
  subst hcur
  have hadopt := h.adopt hinit hne hcptr
  have hmember : (adopted k init child).Member init := Or.inl (h.table.init init hinit).1
  exact ⟨hadopt.wakeForZombie hmember hwake,
    (wakeForZombie_awakes hadopt.table hmember hwake).current⟩

/-- At the end of `do_exit` the zombie is like any other. -/
theorem KernInv.close (h : KernInv (some p) k) (halive : p ∈ k.alive)
    (hcptr : (k.machine.proc p).cptr = none) : KernInv none k := by
  rcases h.family with ⟨before, kids, hfamily⟩
  have hkids : kids p = [] := by
    have hlinked := hfamily.tree.linked p halive
    cases hk : kids p with
    | nil => rfl
    | cons x rest =>
        rw [hk] at hlinked
        exact absurd (hcptr.symm.trans hlinked.1) (by simp)
  refine ⟨h.sched, h.table, ⟨fun _ => none, kids, ⟨fun q hq => ?_, hfamily.tree.parent,
    hfamily.tree.nodup, hfamily.tree.owner⟩, fun _ _ => rfl, hfamily.child, fun q hq => ?_⟩,
    h.pending⟩
  · have hlinked := hfamily.tree.linked q hq
    by_cases hqp : q = p
    · rw [hqp, hkids] at hlinked ⊢
      exact hlinked
    · rwa [hfamily.before q fun hc => hqp (Option.some.inj hc)] at hlinked
  · rcases hfamily.parents q hq with ⟨hm, hz⟩
    refine ⟨hm, Or.inl (hz.resolve_right fun hc => ?_)⟩
    exact hq (Option.some.inj hc ▸ hkids)

theorem KernInv.parent_member (h : KernInv none k) (hp : p ∈ k.procList)
    (hparent : (k.machine.proc p).parent = some q) : k.Member q := by
  rcases h.family with ⟨before, kids, hfamily⟩
  rcases hfamily.parent hp with ⟨q', _, hq', hm⟩
  cases Option.some.inj (hparent.symm.trans hq')
  exact hm

/-- It does not matter when the process of the exit leaves user mode. -/
theorem exit_commutes {m0 m2 : Machine RunQueue} (hm0 : m2.current = m0.current) :
    (k.setMachine m2).enter Call.exited = ((k.setMachine m0).enter Call.exited).setMachine m2 := by
  let f : Nat → Kern := fun c => { k.setMachine m2 with
    ctx := Function.update k.ctx c ⟨Call.exited, false, (k.ctx c).forking⟩ }
  exact congrArg f hm0

/-- What `do_exit` does before it calls `schedule`. -/
theorem doExit_done {code : Int} (h : TriOS.doExit bound k code = done t) :
    k.current ≠ k.machine.idleproc ∧ some k.current ≠ k.initproc ∧ ∃ parent m1 m2,
      ((k.machine.setProc k.current { k.machine.proc k.current with state := ProcState.zombie, exitCode := code }).proc
        k.current).parent = some parent ∧
      wakeIfWaiting (k.machine.setProc k.current
        { k.machine.proc k.current with state := ProcState.zombie, exitCode := code }) parent = done m1 ∧
      reparent bound m1 k.initproc = done m2 ∧ t = (k.setMachine m2).enter Call.exited := by
  simp only [TriOS.doExit, bind_eq_done, assert_eq_done] at h
  rcases h with ⟨_, hidle, _, hinit, h⟩
  refine ⟨hidle, hinit, ?_⟩
  cases hparent : ((k.machine.setProc k.current
      { k.machine.proc k.current with state := ProcState.zombie, exitCode := code }).proc k.current).parent with
  | none =>
      erw [hparent] at h
      cases h
  | some parent =>
      erw [hparent] at h
      simp only [bind_eq_done, pure_eq_done, done.injEq] at h
      rcases h with ⟨m1, hwake, m2, hloop, heq⟩
      exact ⟨parent, m1, m2, rfl, hwake, hloop, heq.symm⟩

/-- `do_exit` up to its call of `schedule`. -/
theorem KernInv.doExit {code : Int} (h : KernInv none k)
    (hcall : (∀ sem w, (k.ctx k.current).call ≠ Call.down sem w) ∧
      ∀ timer, (k.ctx k.current).call ≠ Call.sleep timer)
    (hexit : TriOS.doExit bound k code = done t) : KernInv none t := by
  rcases doExit_done hexit with ⟨hidle, hinit, parent, m1, m2, hparent, hwake, hloop, rfl⟩
  let m0 := k.machine.setProc k.current
    { k.machine.proc k.current with state := ProcState.zombie, exitCode := code }
  let k0 := (k.setMachine m0).enter Call.exited
  have h0 : KernInv (some k.current) k0 := h.zombie hcall hidle hinit
  have hself : (m0.proc k.current).parent = (k.machine.proc k.current).parent := by
    simp [m0, Machine.setProc]
  have hmember : k0.Member parent :=
    h.parent_member (h.table.current.resolve_right hidle) (hself.symm.trans hparent)
  have h1 : KernInv (some k.current) (k0.setMachine m1) := h0.wakeIfWaiting hmember hwake
  have hcur1 : m1.current = k.current := (wakeIfWaiting_awakes h0.table hmember hwake).current
  rcases reparent_rule (fun m => KernInv (some k.current) (k0.setMachine m) ∧
    m.current = k.current) (fun m m2 child init hm hi hcptr hround =>
      @KernInv.round (k0.setMachine m) m2 k.current child init hm.1 hm.2 hi
        (fun hc => hinit (hc ▸ hi.symm)) hcptr hround) ⟨h1, hcur1⟩ hloop with
    ⟨⟨h2, hcur2⟩, hcptr⟩
  rw [hcur2] at hcptr
  have hclose := h2.close (h0.table.member_alive h0.sched h0.table.current) hcptr
  rw [exit_commutes hcur2]
  exact hclose

/-! ## do_wait -/

/-- The loop of `do_wait` finds a zombie among the children. -/
theorem zombieChild_spec {procs : Nat → Proc} {before head : Option Nat} {xs : List Nat}
    {haskid r : Bool}
    (h : Chain.Linked (fun x => (procs x).optr) (fun x => (procs x).yptr) before head xs)
    (hsearch : zombieChild procs bound head haskid = done (r, some p)) :
    p ∈ xs ∧ (procs p).state = ProcState.zombie := by
  induction bound generalizing before head xs haskid with
  | zero => cases hsearch
  | succ bound ih =>
      cases xs with
      | nil =>
          have hhead : head = none := h
          rw [hhead] at hsearch
          cases hsearch
      | cons x xs =>
          rcases h with ⟨rfl, _, hrest⟩
          unfold zombieChild at hsearch
          by_cases hz : (procs x).state = ProcState.zombie
          · rw [if_pos hz] at hsearch
            cases hsearch
            exact ⟨List.mem_cons_self, hz⟩
          · rw [if_neg hz] at hsearch
            have hih := ih hrest hsearch
            exact ⟨List.mem_cons_of_mem _ hih.1, hih.2⟩

/-- The search of `do_wait` finds a child of the current process that is a zombie. -/
theorem waitSearch_found {pid : Int} {haskid : Bool} (h : KernInv none k)
    (hfamily : Family k none before kids)
    (hsearch : waitSearch bound k pid = done (haskid, some p)) :
    p ∈ kids k.current ∧ (k.machine.proc p).state = ProcState.zombie ∧
      (pid ≠ 0 → (k.machine.proc p).pid = pid) := by
  unfold waitSearch at hsearch
  by_cases hpid : pid ≠ 0
  · rw [if_pos hpid] at hsearch
    cases hfind : TriOS.findProc k pid with
    | none =>
        rw [hfind] at hsearch
        cases hsearch
    | some x =>
        rw [hfind] at hsearch
        rcases h.table.findProc hfind with ⟨hlist, hxpid⟩
        by_cases hparent : (k.machine.proc x).parent = some k.current
        · by_cases hz : (k.machine.proc x).state = ProcState.zombie
          · simp only [hparent, hz, if_true, pure_eq_done, done.injEq, Prod.mk.injEq,
              Option.some.injEq] at hsearch
            rcases hsearch with ⟨_, rfl⟩
            exact ⟨hfamily.mem_kids hlist hparent, hz, fun _ => hxpid⟩
          · simp [hparent, hz] at hsearch
        · simp [hparent] at hsearch
  · rw [if_neg hpid] at hsearch
    have hlinked := hfamily.tree.linked k.current h.sched.current
    have hfound := zombieChild_spec hlinked hsearch
    exact ⟨hfound.1, hfound.2, fun hc => absurd hc hpid⟩

/-- What `do_wait` does to the process that it frees, before it returns. -/
def freed (k : Kern) (procs : Nat → Proc) (p : Nat) : Kern :=
  { k.setMachine { k.machine with proc := procs } with
    procList := k.procList.erase p
    hashList := unhashProc k.hashList p
    nrProcess := k.nrProcess - 1
    alive := k.alive.erase p
    ctx := Function.update k.ctx p Context.start }

theorem Table.freed {procs : Nat → Proc} (h : Table k) (hlist : p ∈ k.procList)
    (hcur : p ≠ k.current) (hinit : some p ≠ k.initproc)
    (hparent : ∀ x, (procs x).parent = (k.machine.proc x).parent)
    (hbody : ∀ x, SameBody (procs x) (k.machine.proc x)) : Table (TriOS.freed k procs p) := by
  have hidle := (h.listed p hlist).2.2
  have hpid : ∀ x, (procs x).pid = (k.machine.proc x).pid := fun x => (hbody x).fields.2.1
  have hstate : ∀ x, (procs x).state = (k.machine.proc x).state := fun x => (hbody x).fields.1
  have hmem : ∀ x, (TriOS.freed k procs p).Member x ↔ x ≠ p ∧ k.Member x := by
    intro x
    change (x ∈ k.procList.erase p ∨ x = k.machine.idleproc) ↔ _
    rw [h.nodup.mem_erase_iff]
    constructor
    · rintro (⟨hx, hl⟩ | rfl)
      · exact ⟨hx, Or.inl hl⟩
      · exact ⟨hidle.symm, Or.inr rfl⟩
    · rintro ⟨hx, hl | hl⟩
      · exact Or.inl ⟨hx, hl⟩
      · exact Or.inr hl
  have hctx : ∀ x, x ≠ p → (TriOS.freed k procs p).ctx x = k.ctx x := fun x hx =>
    Function.update_of_ne hx _ _
  refine ⟨h.nodup.erase p, fun i => ?_, fun x hx => ?_, ?_, ⟨h.pids.1, fun pid hx => ?_⟩, ⟨?_, ?_⟩,
    fun x hx => ?_, fun x hx hm => ?_, fun x hx => ?_, fun x c' hc' => ?_, fun hr => ?_, ?_,
    fun i hi => ?_⟩
  · change (k.hashList i).erase p = (k.procList.erase p).filter fun x => pidHashfn (procs x).pid = i
    simp only [hpid]
    rw [h.hash, (h.nodup.filter _).erase_eq_filter, h.nodup.erase_eq_filter, List.filter_filter,
      List.filter_filter]
    refine List.filter_congr fun x _ => ?_
    rw [Bool.and_comm]
  · have hx' := (h.nodup.mem_erase_iff).1 hx
    change x ∈ k.alive.erase p ∧ 1 ≤ (procs x).pid ∧ x ≠ k.machine.idleproc
    rw [hpid]
    exact ⟨Finset.mem_erase.2 ⟨hx'.1, (h.listed x hx'.2).1⟩, (h.listed x hx'.2).2⟩
  · change k.nrProcess - 1 = ((k.procList.erase p).length : Int) + 1
    have hpos := List.length_pos_of_mem hlist
    rw [h.count, List.length_erase_of_mem hlist]
    omega
  · refine h.pids.2 pid ?_
    have hx' : pid ∈ (k.procList.erase p).map fun x => (procs x).pid := hx
    simp only [hpid] at hx'
    rcases List.mem_map.1 hx' with ⟨x, hxl, rfl⟩
    exact List.mem_map_of_mem (List.mem_of_mem_erase hxl)
  · exact (hpid _).trans h.idle.1
  · exact (congrArg Context.call (hctx _ hidle.symm)).trans h.idle.2
  · rcases (hmem x).1 hx with ⟨hxp, hm⟩
    rw [hctx x hxp]
    exact (h.status x hm).congr (hstate x) (hbody x).fields.2.2.2.1
  · have hx' : x ≠ p ∧ x ∈ k.alive := Finset.mem_erase.1 hx
    have hm' : ¬ k.Member x := fun hn => hm ((hmem x).2 ⟨hx'.1, hn⟩)
    change (procs x).state = _ ∧ (procs x).pid = _
    rw [hstate, hpid]
    exact h.rest x hx'.2 hm'
  · by_cases hxp : x = p
    · rw [hxp]
      exact Function.update_self _ _ _
    · rw [hctx x hxp]
      exact h.quiet x fun hn => hx ((hmem x).2 ⟨hxp, hn⟩)
  · have hxp : x ≠ p := by
      rintro rfl
      have hself : (TriOS.freed k procs x).ctx x = Context.start := Function.update_self _ _ _
      rw [hself] at hc'
      cases hc'
    rw [hctx x hxp] at hc'
    rcases h.forking x c' hc' with ⟨halive, hm, hpar⟩
    refine ⟨Finset.mem_erase.2 ⟨?_, halive⟩, fun hn => hm ((hmem c').1 hn).2, (hparent c').trans hpar⟩
    rintro rfl
    exact hm (Or.inl hlist)
  · have hr' : (k.ctx k.current).switched = true :=
      (congrArg Context.switched (hctx k.current hcur.symm)).symm.trans hr
    exact (hstate _).trans (h.running hr')
  · exact (hmem _).2 ⟨hcur.symm, h.current⟩
  · rcases h.init i hi with ⟨hl, hz⟩
    have hip : i ≠ p := by
      rintro rfl
      exact hinit hi.symm
    exact ⟨(h.nodup.mem_erase_iff).2 ⟨hip, hl⟩, fun hz' => hz ((hstate i).symm.trans hz')⟩

/-- A zombie among the children is freed. -/
theorem KernInv.freed (h : KernInv none k) (hfamily : Family k none before kids)
    (hp : p ∈ kids k.current) (hz : (k.machine.proc p).state = ProcState.zombie)
    (hcur : p ≠ k.current) (hinit : some p ≠ k.initproc) :
    ∃ procs, unlinkChild k.machine.proc p = done procs ∧ KernInv none (TriOS.freed k procs p) := by
  have hlist : p ∈ k.procList := (hfamily.child p).2 ⟨k.current, hp⟩
  have hidle := (h.table.listed p hlist).2.2
  have hbefore : before = fun _ => none := funext fun q => hfamily.before q (by simp)
  subst hbefore
  rcases hfamily.tree.unlink hp with ⟨procs, hunlink, htree, hparent, hbody⟩
  rcases h.pending with ⟨queue, a, d, hpending⟩
  have hstate : ∀ x, (procs x).state = (k.machine.proc x).state := fun x => (hbody x).fields.1
  have hpkids : kids p = [] := by
    by_contra hn
    exact (hfamily.parents p hn).2.elim (fun hc => hc hz) (by simp)
  have hcall : (k.ctx p).call = Call.exited := by
    have hstatus := h.table.status p (Or.inl hlist)
    cases hc : (k.ctx p).call with
    | exited => rfl
    | user =>
        rw [hc] at hstatus
        exact absurd (hz.symm.trans hstatus.1) (by decide)
    | wait _ | sleep _ | down _ _ =>
        rw [hc] at hstatus
        rcases hstatus with ⟨hs, _⟩ | ⟨hs, _⟩
        all_goals exact absurd (hz.symm.trans hs) (by decide)
  have hctx : ∀ x c', c' ≠ Call.user → c' ≠ Call.exited →
      (((TriOS.freed k procs p).ctx x).call = c' ↔ (k.ctx x).call = c') := by
    intro x c' hu he
    by_cases hxp : x = p
    · have hself : (TriOS.freed k procs p).ctx p = Context.start := Function.update_self _ _ _
      rw [hxp, hself, hcall]
      exact ⟨fun hn => absurd hn.symm hu, fun hn => absurd hn.symm he⟩
    · have hsame : (TriOS.freed k procs p).ctx x = k.ctx x := Function.update_of_ne hxp _ _
      rw [hsame]
  refine ⟨procs, hunlink, ?_, h.table.freed hlist hcur hinit hparent hbody, ⟨fun _ => none,
    Function.update kids k.current ((kids k.current).erase p), ?_⟩, queue, a, d, ?_⟩
  · have hs : SchedInv ⟨{ k.machine with proc := procs }, k.alive⟩ := by
      refine h.sched.other fun x => ?_
      rcases (hbody x).fields with ⟨hst, hpid, hrun, _⟩
      exact ⟨hst, hpid, hrun⟩
    refine hs.free hcur hidle fun hn => ?_
    have hn' := (hstate p).symm.trans hn
    exact absurd (hz.symm.trans hn') (by decide)
  · refine ⟨htree.congr (fun q hq => Finset.mem_of_mem_erase hq) (fun q hq => ?_)
      fun x => ⟨rfl, rfl, rfl, rfl⟩, fun _ _ => rfl, fun x => ?_, fun q hq => ?_⟩
    · refine Finset.mem_erase.2 ⟨?_, htree.owner q hq⟩
      rintro rfl
      rw [Function.update_of_ne hcur] at hq
      exact hq hpkids
    · change x ∈ k.procList.erase p ↔ _
      rw [h.table.nodup.mem_erase_iff, hfamily.child]
      constructor
      · rintro ⟨hxp, q, hq⟩
        refine ⟨q, ?_⟩
        by_cases hqc : q = k.current
        · rw [hqc, Function.update_self]
          exact (List.mem_erase_of_ne hxp).2 (hqc ▸ hq)
        · rwa [Function.update_of_ne hqc]
      · rintro ⟨q, hq⟩
        by_cases hqc : q = k.current
        · rw [hqc, Function.update_self, (hfamily.tree.nodup _).mem_erase_iff] at hq
          exact ⟨hq.1, k.current, hq.2⟩
        · rw [Function.update_of_ne hqc] at hq
          refine ⟨?_, q, hq⟩
          rintro rfl
          exact hqc (hfamily.tree.unique hq hp)
    · have hq' : kids q ≠ [] := by
        by_cases hqc : q = k.current
        · exact hqc ▸ List.ne_nil_of_mem hp
        · rwa [Function.update_of_ne hqc] at hq
      rcases hfamily.parents q hq' with ⟨hm, hnz⟩
      have hqp : q ≠ p := by
        rintro rfl
        exact hq' hpkids
      refine ⟨?_, ?_⟩
      · exact hm.imp_left fun hl => (List.mem_erase_of_ne hqp).2 hl
      · change (procs q).state ≠ _ ∨ _
        rwa [hstate]
  · refine hpending.frame rfl rfl (fun x sem w => hctx x (Call.down sem w) (by simp) (by simp))
      (fun x timer => hctx x (Call.sleep timer) (by simp) (by simp)) fun x _ => ?_
    exact ⟨hstate x, (hbody x).fields.2.2.2.1⟩

/-- A pass of `do_wait`. -/
theorem KernInv.doWait {pid : Int} {r : WaitResult} (h : KernInv none k)
    (hrun : k.InUser ∨ (k.ctx k.current).switched = true)
    (hcall : (∀ sem w, (k.ctx k.current).call ≠ Call.down sem w) ∧
      ∀ timer, (k.ctx k.current).call ≠ Call.sleep timer)
    (hidle : k.current ≠ k.machine.idleproc)
    (hwait : TriOS.doWait bound k pid = done (r, t)) : KernInv none t := by
  rcases h.family with ⟨before, kids, hfamily⟩
  rcases h.pending with ⟨queue, a, d, hpending⟩
  have henter : ∀ call x, ((k.enter call).ctx x).call =
      if x = k.current then call else (k.ctx x).call := by
    intro call x
    by_cases hx : x = k.current
    · rw [if_pos hx, hx, enter_ctx_current]
    · rw [if_neg hx, enter_ctx_of_ne call hx]
  simp only [TriOS.doWait, bind_eq_done, Prod.exists] at hwait
  rcases hwait with ⟨haskid, found, hsearch, hwait⟩
  cases found with
  | some p =>
      simp only [reap, bind_eq_done, assert_eq_done, pure_eq_done, done.injEq] at hwait
      rcases hwait with ⟨_, ⟨_, hinit⟩, procs, hunlink, hr⟩
      rcases Prod.mk.inj hr with ⟨_, rfl⟩
      rcases waitSearch_found h hfamily hsearch with ⟨hp, hz, _⟩
      have hcur : p ≠ k.current := by
        rintro rfl
        exact absurd (hz.symm.trans (h.table.runs hrun).1) (by decide)
      rcases h.freed hfamily hp hz hcur hinit with ⟨procs', hunlink', h1⟩
      cases Outcome.done.inj (hunlink.symm.trans hunlink')
      have hctx : (TriOS.freed k procs p).ctx k.current = k.ctx k.current :=
        Function.update_of_ne hcur.symm _ _
      rcases h1.pending with ⟨queue, a, d, hpending1⟩
      have hrun1 : (TriOS.freed k procs p).InUser ∨
          ((TriOS.freed k procs p).ctx (TriOS.freed k procs p).current).switched = true := by
        unfold Kern.InUser
        change ((TriOS.freed k procs p).ctx k.current).call = _ ∨
          ((TriOS.freed k procs p).ctx k.current).switched = true
        rw [hctx]
        exact hrun
      refine @KernInv.leave (TriOS.freed k procs p) h1 (TriOS.freed k procs p).sync k.timers rfl hrun1
        ⟨queue, a, d, ?_⟩
      have hcall1 : ∀ x c', c' ≠ Call.user → (k.ctx k.current).call ≠ c' →
          ((((TriOS.freed k procs p).enter Call.user).ctx x).call = c' ↔
            ((TriOS.freed k procs p).ctx x).call = c') := by
        intro x c' hu hc'
        by_cases hx : x = k.current
        · have hself : (((TriOS.freed k procs p).enter Call.user).ctx k.current).call = Call.user :=
            congrArg Context.call (enter_ctx_current (TriOS.freed k procs p) Call.user)
          rw [hx, hself, hctx]
          exact ⟨fun hn => absurd hn.symm hu, fun hn => absurd hn hc'⟩
        · have hother : ((TriOS.freed k procs p).enter Call.user).ctx x = (TriOS.freed k procs p).ctx x :=
            enter_ctx_of_ne Call.user hx
          rw [hother]
      exact hpending1.frame rfl rfl (fun x sem w => hcall1 x (Call.down sem w) (by simp) (hcall.1 sem w))
        (fun x timer => hcall1 x (Call.sleep timer) (by simp) (hcall.2 timer)) fun _ _ => ⟨rfl, rfl⟩
  | none =>
      have hframe : ∀ call x c', call ≠ c' → (k.ctx k.current).call ≠ c' →
          (((k.enter call).ctx x).call = c' ↔ (k.ctx x).call = c') := by
        intro call x c' hne hc'
        rw [henter]
        by_cases hx : x = k.current
        · rw [if_pos hx, hx]
          exact ⟨fun hn => absurd hn hne, fun hn => absurd hn hc'⟩
        · rw [if_neg hx]
      by_cases hkid : haskid = true
      · simp only [hkid, if_true, pure_eq_done, done.injEq] at hwait
        rcases Prod.mk.inj hwait with ⟨_, rfl⟩
        refine @KernInv.block k h { k.sync with machine := _ } k.timers (Call.wait pid) wtChild rfl
          (fun v hs hw => Or.inl ⟨hs, hw⟩) hidle ⟨queue, a, d, ?_⟩
        refine hpending.frame rfl rfl
          (fun x sem w => hframe (Call.wait pid) x (Call.down sem w) (by simp) (hcall.1 sem w))
          (fun x timer => hframe (Call.wait pid) x (Call.sleep timer) (by simp) (hcall.2 timer)) fun x hx => ?_
        have hxc : x ≠ k.current := by
          rintro rfl
          rcases hx with ⟨sem, w, hc⟩ | ⟨timer, hc⟩
          · exact hcall.1 sem w hc
          · exact hcall.2 timer hc
        change ((k.machine.setProc k.current _).proc x).state = _ ∧
          ((k.machine.setProc k.current _).proc x).waitState = _
        simp [Machine.setProc, hxc]
      · simp only [hkid, if_false, pure_eq_done, done.injEq, Bool.false_eq_true] at hwait
        rcases Prod.mk.inj hwait with ⟨_, rfl⟩
        refine @KernInv.leave k h k.sync k.timers rfl hrun ⟨queue, a, d, ?_⟩
        exact hpending.frame rfl rfl
          (fun x sem w => hframe Call.user x (Call.down sem w) (by simp) (hcall.1 sem w))
          (fun x timer => hframe Call.user x (Call.sleep timer) (by simp) (hcall.2 timer)) fun _ _ => ⟨rfl, rfl⟩

end TriOS
