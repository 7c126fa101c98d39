import TriOS.Schedule.RoundRobin

/-!
# Runs of the round-robin scheduler

The run list is a queue of the processes that wait for the processor: they leave it in the order in which they
entered it. A time slice is full again whenever it is used up and its process enters the queue.
-/

namespace TriOS.RoundRobin

open CircularList Outcome Transition

variable {procRun : Machine → Nat → Machine} {m m' : Machine} {s t : Sys} {alive : Finset Nat} {op : Op}
  {queue queue' rest l r : List Nat} {p q idle : Nat} {proc : RrProc} {maxSlice slice : Int}

/-- The process waits for the processor. -/
def Machine.Ready (m : Machine) (p : Nat) : Prop :=
  (m.proc p).state = .runnable ∧ p ≠ m.idleproc ∧ p ≠ m.current

/-- The run list is the queue. -/
structure Queued (m : Machine) (alive : Finset Nat) (queue : List Nat) : Prop where
  ring : Ring m.rq.links .runList (queue.map .runLink)
  selfLinked : ∀ p ∈ alive, p ∉ queue → listEmpty m.rq.links (.runLink p)
  alive : ∀ p ∈ queue, p ∈ alive
  procNum : m.rq.procNum = queue.length
  inRq : ∀ p ∈ queue, (m.proc p).inRq = true
  maxSlice : 0 < m.rq.maxTimeSlice
  slices : ∀ p ∈ queue, 0 < (m.proc p).timeSlice ∧ (m.proc p).timeSlice ≤ m.rq.maxTimeSlice
  fifo : m.rq.enqueued = m.rq.dequeued ++ queue

/-- The invariant of the scheduler. -/
structure Inv (s : Sys) (queue : List Nat) : Prop where
  queued : Queued s.machine s.alive queue
  ready : ∀ p, p ∈ queue ↔ p ∈ s.alive ∧ s.machine.Ready p
  slices : ∀ p ∈ s.alive, 0 ≤ (s.machine.proc p).timeSlice
  current : s.machine.current ∈ s.alive
  idle : s.machine.idleproc ∈ s.alive
  running : s.machine.current ≠ s.machine.idleproc →
    (0 < (s.machine.proc s.machine.current).timeSlice →
      s.ticks + (s.machine.proc s.machine.current).timeSlice ≤ s.machine.rq.maxTimeSlice) ∧
    ((s.machine.proc s.machine.current).timeSlice = 0 → (s.machine.proc s.machine.current).needResched = true)
  idling : s.machine.current = s.machine.idleproc → 0 < s.ticks →
    (s.machine.proc s.machine.current).needResched = true

/-! ## The queue -/

theorem runLink_mem : RunNode.runLink p ∈ queue.map RunNode.runLink ↔ p ∈ queue := by
  constructor
  · intro hmem
    obtain ⟨q, hq, heq⟩ := List.mem_map.1 hmem
    cases heq
    exact hq
  · exact List.mem_map_of_mem

theorem runLink_not_mem (hp : p ∉ queue) : RunNode.runLink p ∉ RunNode.runList :: queue.map RunNode.runLink := by
  intro hmem
  rcases List.mem_cons.1 hmem with heq | hmem
  · cases heq
  · exact hp (runLink_mem.1 hmem)

theorem Queued.nodup (h : Queued m alive queue) : queue.Nodup :=
  (List.nodup_cons.1 h.ring.nodup).2.of_map _

/-- Only the queue, the pool of descriptors and the fields of queued processes matter. -/
theorem Queued.congr (h : Queued m alive queue) (hrq : m'.rq = m.rq)
    (hproc : ∀ p ∈ queue, (m'.proc p).inRq = (m.proc p).inRq ∧ (m'.proc p).timeSlice = (m.proc p).timeSlice) :
    Queued m' alive queue := by
  refine ⟨hrq.symm ▸ h.ring, hrq.symm ▸ h.selfLinked, h.alive, hrq.symm ▸ h.procNum, fun p hp => ?_,
    hrq.symm ▸ h.maxSlice, fun p hp => ?_, hrq.symm ▸ h.fifo⟩
  · rw [(hproc p hp).1]
    exact h.inRq p hp
  · rw [(hproc p hp).2, hrq]
    exact h.slices p hp

theorem refill_spec (hmax : 0 < maxSlice) (hslice : 0 ≤ slice) :
    0 < refill maxSlice slice ∧ refill maxSlice slice ≤ maxSlice := by
  unfold refill
  split
  · exact ⟨hmax, le_refl _⟩
  · omega

/-! ## Entering the queue -/

theorem linkIn_proc_self (m : Machine) (p : Nat) :
    (m.linkIn p).proc p =
      { m.proc p with timeSlice := refill m.rq.maxTimeSlice (m.proc p).timeSlice, inRq := true } :=
  Function.update_self _ _ _

theorem linkIn_proc_of_ne (m : Machine) (hq : q ≠ p) : (m.linkIn p).proc q = m.proc q :=
  Function.update_of_ne hq _ _

/-- The state and the flag of every process are kept. -/
theorem linkIn_state (m : Machine) (p q : Nat) :
    ((m.linkIn p).proc q).state = (m.proc q).state ∧ ((m.linkIn p).proc q).needResched = (m.proc q).needResched := by
  by_cases hq : q = p
  · subst hq
    rw [linkIn_proc_self]
    exact ⟨rfl, rfl⟩
  · rw [linkIn_proc_of_ne m hq]
    exact ⟨rfl, rfl⟩

/-- A node that is in no list keeps its links when a node enters the run list. -/
theorem listAddBefore_frame {links : Links RunNode} (hring : Ring links .runList (queue.map .runLink)) (hq : q ∉ queue)
    (hqp : q ≠ p) (hempty : listEmpty links (.runLink q)) :
    listEmpty (listAddBefore links .runList (.runLink p)) (.runLink q) := by
  have hout := runLink_not_mem hq
  have hprev : RunNode.runLink q ≠ links.prev .runList := by
    intro heq
    rw [hring.prev_head] at heq
    apply hout
    rw [heq]
    rcases List.eq_nil_or_concat (queue.map RunNode.runLink) with hnil | ⟨us, u, hlast⟩
    · rw [hnil]
      exact List.mem_cons_self
    · rw [hlast, List.concat_eq_append, getLastD_concat]
      simp
  have hnode : RunNode.runLink q ≠ .runLink p := fun heq => hqp (RunNode.runLink.inj heq)
  have hnext : (listAddBefore links .runList (.runLink p)).next (.runLink q) = links.next (.runLink q) := by
    simp [listAddBefore, listAddBetween, Links.setNext_next, hnode, hprev]
  exact hnext.trans hempty

theorem Queued.enqueue (h : Queued m alive queue) (hp : p ∈ alive) (hnew : p ∉ queue)
    (hslice : 0 ≤ (m.proc p).timeSlice) :
    rrEnqueue m p = done (m.linkIn p) ∧ Queued (m.linkIn p) alive (queue ++ [p]) := by
  have hring : Ring (m.linkIn p).rq.links .runList ((queue ++ [p]).map .runLink) := by
    have hadd := @ring_listAddBefore RunNode _ m.rq.links .runList (.runLink p) (queue.map .runLink) []
    rw [List.append_nil] at hadd
    rw [List.map_append, List.map_singleton]
    exact hadd h.ring (runLink_not_mem hnew)
  have hcases : ∀ q ∈ queue ++ [p], q = p ∨ q ≠ p ∧ q ∈ queue := by
    intro q hq
    by_cases hqp : q = p
    · exact Or.inl hqp
    · rcases List.mem_append.1 hq with hq | hq
      · exact Or.inr ⟨hqp, hq⟩
      · exact absurd (List.mem_singleton.1 hq) hqp
  refine ⟨?_, ⟨hring, fun q hq hout => ?_, fun q hq => ?_, ?_, fun q hq => ?_, h.maxSlice, fun q hq => ?_, ?_⟩⟩
  · unfold rrEnqueue
    rw [assert_of (h.selfLinked p hp hnew)]
    rfl
  · have hqueue : q ∉ queue := fun hin => hout (List.mem_append_left _ hin)
    have hne : q ≠ p := fun heq => hout (heq ▸ List.mem_append_right queue List.mem_cons_self)
    exact listAddBefore_frame h.ring hqueue hne (h.selfLinked q hq hqueue)
  · rcases hcases q hq with rfl | ⟨-, hq⟩
    · exact hp
    · exact h.alive q hq
  · have hnum : (m.linkIn p).rq.procNum = m.rq.procNum + 1 := rfl
    rw [hnum, h.procNum, List.length_append, List.length_singleton]
  · rcases hcases q hq with rfl | ⟨hne, hq⟩
    · rw [linkIn_proc_self]
    · rw [linkIn_proc_of_ne m hne]
      exact h.inRq q hq
  · rcases hcases q hq with rfl | ⟨hne, hq⟩
    · rw [linkIn_proc_self]
      exact refill_spec h.maxSlice hslice
    · rw [linkIn_proc_of_ne m hne]
      exact h.slices q hq
  · have henq : (m.linkIn p).rq.enqueued = m.rq.enqueued ++ [p] := rfl
    rw [henq, h.fifo, List.append_assoc]
    rfl

/-! ## Leaving the queue -/

theorem Queued.pickNext_nil (h : Queued m alive []) : rrPickNext m = none := by
  have hnext := h.ring.next_head
  unfold rrPickNext listNext
  rw [hnext]
  rfl

theorem Queued.pickNext_cons (h : Queued m alive (p :: rest)) : rrPickNext m = some p := by
  have hnext := h.ring.next_head
  unfold rrPickNext listNext
  rw [hnext]
  rfl

/-- A node that is in no list keeps its links when a node leaves the run list. -/
theorem listDelInit_frame {links : Links RunNode} (hring : Ring links .runList (queue.map .runLink)) (hp : p ∈ queue)
    (hq : q ∉ queue) (hempty : listEmpty links (.runLink q)) :
    listEmpty (listDelInit links (.runLink p)) (.runLink q) := by
  have hout := runLink_not_mem hq
  have hmem : RunNode.runLink p ∈ RunNode.runList :: queue.map RunNode.runLink :=
    List.mem_cons_of_mem _ (runLink_mem.2 hp)
  have hnode : RunNode.runLink q ≠ .runLink p := fun heq => hout (heq ▸ hmem)
  have hprev : RunNode.runLink q ≠ links.prev (.runLink p) := by
    intro heq
    apply hout
    obtain ⟨l, r, rfl⟩ := List.append_of_mem hp
    rw [List.map_append, List.map_cons] at hring ⊢
    rw [heq, hring.prev_mem]
    rcases List.eq_nil_or_concat (l.map RunNode.runLink) with hnil | ⟨us, u, hlast⟩
    · rw [hnil]
      exact List.mem_cons_self
    · rw [hlast, List.concat_eq_append, getLastD_concat]
      simp
  have hnext : (listDelInit links (.runLink p)).next (.runLink q) = links.next (.runLink q) := by
    simp [listDelInit, listInit, listDel, listDelBetween, Links.setNext_next, hnode, hprev]
  exact hnext.trans hempty

/-- A node of the run list is linked. -/
theorem Queued.not_listEmpty (h : Queued m alive queue) (hp : p ∈ queue) : ¬ listEmpty m.rq.links (.runLink p) := by
  obtain ⟨l, r, rfl⟩ := List.append_of_mem hp
  have hring := h.ring
  rw [List.map_append, List.map_cons] at hring
  intro hempty
  have hnil := hring.rotate.next_eq_head_iff.1 hempty
  exact List.cons_ne_nil _ _ (List.append_eq_nil_iff.1 hnil).2

theorem Queued.dequeue (h : Queued m alive (p :: rest)) :
    rrDequeue m p = done (m.linkOut p rest.length) ∧ Queued (m.linkOut p rest.length) alive rest := by
  have hp : p ∈ p :: rest := List.mem_cons_self
  obtain ⟨hout, -⟩ := List.nodup_cons.1 h.nodup
  have hnot := h.not_listEmpty hp
  have hnum : m.rq.procNum = rest.length + 1 := h.procNum
  refine ⟨?_, ⟨?_, fun q hq hin => ?_, fun q hq => h.alive q (List.mem_cons_of_mem p hq), rfl,
    fun q hq => h.inRq q (List.mem_cons_of_mem p hq), h.maxSlice, fun q hq => h.slices q (List.mem_cons_of_mem p hq),
    ?_⟩⟩
  · have hsub : sub m.rq.procNum 1 = done rest.length := by
      rw [hnum]
      exact sub_of_le (Nat.le_add_left 1 _)
    unfold rrDequeue
    rw [assert_of ⟨hnot, h.inRq p hp⟩, bind_done, hsub]
    rfl
  · have hring : Ring m.rq.links .runList ([] ++ .runLink p :: rest.map .runLink) := h.ring
    exact ring_listDelInit hring
  · by_cases hqp : q = p
    · subst hqp
      simp [Machine.linkOut, listEmpty, listDelInit, listInit, Links.setNext_next]
    · have hqueue : q ∉ p :: rest := fun hmem => (List.mem_cons.1 hmem).elim hqp hin
      exact listDelInit_frame h.ring hp hqueue (h.selfLinked q hq hqueue)
  · have hdeq : (m.linkOut p rest.length).rq.dequeued = m.rq.dequeued ++ [p] := rfl
    have henq : (m.linkOut p rest.length).rq.enqueued = m.rq.enqueued := rfl
    rw [henq, hdeq, h.fifo, List.append_assoc]
    rfl

/-! ## wakeup_proc -/

theorem setProc_self (m : Machine) (p : Nat) (v : RrProc) : (m.setProc p v).proc p = v :=
  Function.update_self _ _ _

theorem setProc_of_ne (m : Machine) (v : RrProc) (hq : q ≠ p) : (m.setProc p v).proc q = m.proc q :=
  Function.update_of_ne hq _ _

/-- The fields of a process that the queue does not use are changed. -/
theorem Queued.setProc (h : Queued m alive queue) {v : RrProc} (hin : v.inRq = (m.proc p).inRq)
    (hslice : v.timeSlice = (m.proc p).timeSlice) : Queued (m.setProc p v) alive queue := by
  refine h.congr rfl fun q _ => ?_
  by_cases hq : q = p
  · subst hq
    rw [setProc_self]
    exact ⟨hin, hslice⟩
  · rw [setProc_of_ne m v hq]
    exact ⟨rfl, rfl⟩

/-- The machine has changed, but not what runs, nor the time that it has. -/
theorem Inv.keep (h : Inv s queue) (hqueued : Queued m s.alive queue')
    (hready : ∀ p, p ∈ queue' ↔ p ∈ s.alive ∧ m.Ready p) (hslices : ∀ p ∈ s.alive, 0 ≤ (m.proc p).timeSlice)
    (hcurrent : m.current = s.machine.current) (hidle : m.idleproc = s.machine.idleproc)
    (hmax : m.rq.maxTimeSlice = s.machine.rq.maxTimeSlice)
    (hself : (m.proc m.current).timeSlice = (s.machine.proc s.machine.current).timeSlice ∧
      ((s.machine.proc s.machine.current).needResched = true → (m.proc m.current).needResched = true)) :
    Inv { s with machine := m } queue' := by
  refine ⟨hqueued, hready, hslices, ?_, ?_, fun hne => ?_, fun heq hticks => ?_⟩
  · exact hcurrent.symm ▸ h.current
  · exact hidle.symm ▸ h.idle
  · have hne' : s.machine.current ≠ s.machine.idleproc := by
      rw [← hcurrent, ← hidle]
      exact hne
    obtain ⟨hleft, hused⟩ := h.running hne'
    dsimp only
    rw [hself.1, hmax]
    exact ⟨hleft, fun hzero => hself.2 (hused hzero)⟩
  · have heq' : s.machine.current = s.machine.idleproc := by
      rw [← hcurrent, ← hidle]
      exact heq
    exact hself.2 (h.idling heq' hticks)

/-- One process is changed, and waits for the processor if it did before. -/
theorem Inv.setProc (h : Inv s queue) {v : RrProc} (hin : v.inRq = (s.machine.proc p).inRq)
    (hslice : v.timeSlice = (s.machine.proc p).timeSlice)
    (hflag : (s.machine.proc p).needResched = true → v.needResched = true)
    (hready : (s.machine.setProc p v).Ready p ↔ s.machine.Ready p) :
    Inv { s with machine := s.machine.setProc p v } queue := by
  have hfields : ∀ q, ((s.machine.setProc p v).proc q).timeSlice = (s.machine.proc q).timeSlice ∧
      ((s.machine.proc q).needResched = true → ((s.machine.setProc p v).proc q).needResched = true) ∧
      ((s.machine.setProc p v).Ready q ↔ s.machine.Ready q) := by
    intro q
    by_cases hq : q = p
    · subst hq
      refine ⟨?_, ?_, hready⟩
      · rw [setProc_self]
        exact hslice
      · rw [setProc_self]
        exact hflag
    · unfold Machine.Ready
      rw [setProc_of_ne s.machine v hq]
      exact ⟨rfl, id, Iff.rfl⟩
  refine h.keep (h.queued.setProc hin hslice) (fun q => ?_) (fun q hq => ?_) rfl rfl rfl ?_
  · rw [h.ready q, (hfields q).2.2]
  · rw [(hfields q).1]
    exact h.slices q hq
  · exact ⟨(hfields _).1, (hfields _).2.1⟩

theorem schedClassEnqueue_of_ne (m : Machine) (hp : p ≠ m.idleproc) : schedClassEnqueue m p = rrEnqueue m p :=
  if_pos hp

theorem schedClassEnqueue_idle (m : Machine) (hp : p = m.idleproc) : schedClassEnqueue m p = done m :=
  if_neg (not_not.2 hp)

/-- What `wakeup_proc` does to the fields of a process. -/
def RrProc.awake (proc : RrProc) : RrProc := { proc with state := .runnable, waitState := 0 }

/-- A process that is not a zombie is woken up, and enters the queue unless it is runnable, or runs. -/
theorem Inv.wakeup (h : Inv s queue) (hp : p ∈ s.alive) (hzombie : (s.machine.proc p).state ≠ .zombie) :
    ∃ m e, wakeupProc s.machine p = done m ∧ Inv { s with machine := m } (queue ++ e) ∧
      m.rq.dequeued = s.machine.rq.dequeued := by
  have hwake : wakeupProc s.machine p = if (s.machine.proc p).state ≠ .runnable then
      (if p ≠ s.machine.current then schedClassEnqueue (s.machine.setProc p (s.machine.proc p).awake) p
        else pure (s.machine.setProc p (s.machine.proc p).awake))
      else pure s.machine := by
    unfold wakeupProc
    rw [assert_of hzombie]
    rfl
  rw [hwake]
  by_cases hrun : (s.machine.proc p).state = .runnable
  · rw [if_neg (not_not.2 hrun)]
    exact ⟨s.machine, [], rfl, by rwa [List.append_nil], rfl⟩
  · rw [if_pos hrun]
    by_cases hwho : p ≠ s.machine.current ∧ p ≠ s.machine.idleproc
    · have hnew : p ∉ queue := fun hin => hrun ((h.ready p).1 hin).2.1
      have hqueued := @Queued.setProc s.machine s.alive queue p h.queued (s.machine.proc p).awake rfl rfl
      have hslices : ∀ q ∈ s.alive, 0 ≤ ((s.machine.setProc p (s.machine.proc p).awake).proc q).timeSlice := by
        intro q hq
        by_cases hqp : q = p
        · subst hqp
          rw [setProc_self]
          exact h.slices q hq
        · rw [setProc_of_ne _ _ hqp]
          exact h.slices q hq
      obtain ⟨henqueue, hqueued'⟩ := hqueued.enqueue hp hnew (hslices p hp)
      have hother : ∀ q, q ≠ p → ((s.machine.setProc p (s.machine.proc p).awake).linkIn p).proc q =
          s.machine.proc q := by
        intro q hq
        rw [linkIn_proc_of_ne _ hq, setProc_of_ne _ _ hq]
      have hself : (((s.machine.setProc p (s.machine.proc p).awake).linkIn p).proc p).state = .runnable := by
        rw [(linkIn_state _ p p).1, setProc_self]
        rfl
      refine ⟨_, [p], ?_, h.keep hqueued' (fun q => ?_) (fun q hq => ?_) rfl rfl rfl ?_, rfl⟩
      · rw [if_pos hwho.1]
        exact (schedClassEnqueue_of_ne (s.machine.setProc p _) hwho.2).trans henqueue
      · by_cases hq : q = p
        · subst hq
          exact ⟨fun _ => ⟨hp, hself, hwho.2, hwho.1⟩, fun _ => List.mem_append_right queue List.mem_cons_self⟩
        · unfold Machine.Ready
          rw [hother q hq]
          refine Iff.trans ⟨fun hin => ?_, List.mem_append_left _⟩ (h.ready q)
          rcases List.mem_append.1 hin with hin | hin
          · exact hin
          · exact absurd (List.mem_singleton.1 hin) hq
      · by_cases hqp : q = p
        · subst hqp
          exact (hqueued'.slices q (List.mem_append_right queue List.mem_cons_self)).1.le
        · rw [hother q hqp]
          exact h.slices q hq
      · have hcurr : s.machine.current ≠ p := hwho.1.symm
        have hsame := hother _ hcurr
        exact ⟨congrArg RrProc.timeSlice hsame, fun hflag => (congrArg RrProc.needResched hsame).trans hflag⟩
    · -- the current process and the idle process are not queued
      have hstay : Inv { s with machine := s.machine.setProc p (s.machine.proc p).awake } queue := by
        refine h.setProc rfl rfl id ⟨fun hready => ?_, fun hready => ?_⟩
        · exact absurd ⟨hready.2.2, hready.2.1⟩ hwho
        · exact absurd ⟨hready.2.2, hready.2.1⟩ hwho
      refine ⟨s.machine.setProc p (s.machine.proc p).awake, [], ?_, by rwa [List.append_nil], rfl⟩
      by_cases hcurr : p ≠ s.machine.current
      · have hidle : p = s.machine.idleproc := by
          by_contra hne
          exact hwho ⟨hcurr, hne⟩
        rw [if_pos hcurr]
        exact schedClassEnqueue_idle _ hidle
      · rw [if_neg hcurr]
        rfl

/-! ## schedule -/

/-- The queue when `schedule` picks the next process. -/
def Machine.waiting (m : Machine) (queue : List Nat) : List Nat :=
  if (m.proc m.current).state = .runnable ∧ m.current ≠ m.idleproc then queue ++ [m.current] else queue

/-- `current->need_resched = 0` -/
def Machine.unflag (m : Machine) : Machine :=
  m.setProc m.current { m.proc m.current with needResched := false }

theorem unflag_proc (m : Machine) (q : Nat) :
    (m.unflag.proc q).state = (m.proc q).state ∧ (m.unflag.proc q).timeSlice = (m.proc q).timeSlice := by
  unfold Machine.unflag
  by_cases hq : q = m.current
  · subst hq
    rw [setProc_self]
    exact ⟨rfl, rfl⟩
  · rw [setProc_of_ne m _ hq]
    exact ⟨rfl, rfl⟩

/-- `schedule` up to the pick: every process that can run is in the queue. -/
theorem Inv.rejoin (h : Inv s queue) :
    ∃ m, (if (s.machine.unflag.proc s.machine.current).state = .runnable then
        schedClassEnqueue s.machine.unflag s.machine.current else pure s.machine.unflag) = done m ∧
      Queued m s.alive (s.machine.waiting queue) ∧ m.current = s.machine.current ∧
      m.idleproc = s.machine.idleproc ∧ m.rq.dequeued = s.machine.rq.dequeued ∧
      (∀ p ∈ s.alive, 0 ≤ (m.proc p).timeSlice) ∧
      ∀ p, p ∈ s.machine.waiting queue ↔ p ∈ s.alive ∧ (m.proc p).state = .runnable ∧ p ≠ m.idleproc := by
  have hqueued : Queued s.machine.unflag s.alive queue := h.queued.setProc rfl rfl
  have hslices : ∀ q ∈ s.alive, 0 ≤ (s.machine.unflag.proc q).timeSlice := by
    intro q hq
    rw [(unflag_proc s.machine q).2]
    exact h.slices q hq
  rw [(unflag_proc s.machine s.machine.current).1]
  unfold Machine.waiting
  by_cases hback : (s.machine.proc s.machine.current).state = .runnable ∧ s.machine.current ≠ s.machine.idleproc
  · have hnew : s.machine.current ∉ queue := fun hin => ((h.ready _).1 hin).2.2.2 rfl
    obtain ⟨henqueue, hqueued'⟩ := hqueued.enqueue h.current hnew (hslices _ h.current)
    rw [if_pos hback.1, if_pos hback]
    refine ⟨_, (schedClassEnqueue_of_ne s.machine.unflag hback.2).trans henqueue, hqueued', rfl, rfl, rfl, fun q hq => ?_, fun q => ?_⟩
    · by_cases hqc : q = s.machine.current
      · exact (hqueued'.slices q (hqc ▸ List.mem_append_right queue List.mem_cons_self)).1.le
      · rw [linkIn_proc_of_ne _ hqc]
        exact hslices q hq
    · rw [(linkIn_state _ _ q).1, (unflag_proc s.machine q).1, List.mem_append, List.mem_singleton, h.ready q]
      unfold Machine.Ready
      constructor
      · rintro (⟨halive, hrun, hidle, -⟩ | rfl)
        · exact ⟨halive, hrun, hidle⟩
        · exact ⟨h.current, hback⟩
      · rintro ⟨halive, hrun, hidle⟩
        by_cases hqc : q = s.machine.current
        · exact Or.inr hqc
        · exact Or.inl ⟨halive, hrun, hidle, hqc⟩
  · rw [if_neg hback]
    have hmem : ∀ q, q ∈ queue ↔ q ∈ s.alive ∧ (s.machine.unflag.proc q).state = .runnable ∧ q ≠ s.machine.idleproc := by
      intro q
      rw [h.ready q, (unflag_proc s.machine q).1]
      unfold Machine.Ready
      constructor
      · exact fun hq => ⟨hq.1, hq.2.1, hq.2.2.1⟩
      · rintro ⟨halive, hrun, hidle⟩
        refine ⟨halive, hrun, hidle, ?_⟩
        rintro rfl
        exact hback ⟨hrun, hidle⟩
    by_cases hrun : (s.machine.proc s.machine.current).state = .runnable
    · have hidle : s.machine.current = s.machine.idleproc := by
        by_contra hne
        exact hback ⟨hrun, hne⟩
      rw [if_pos hrun]
      exact ⟨_, schedClassEnqueue_idle _ hidle, hqueued, rfl, rfl, rfl, hslices, hmem⟩
    · rw [if_neg hrun]
      exact ⟨_, rfl, hqueued, rfl, rfl, rfl, hslices, hmem⟩

/-- `schedule` runs the first process of the queue, or the idle process if there is none. -/
theorem Inv.schedule (hswitch : Switches procRun) (h : Inv s queue) :
    ∃ m, RoundRobin.schedule procRun s.machine = done m ∧
      m.current = (s.machine.waiting queue).headD s.machine.idleproc ∧
      m.rq.dequeued = s.machine.rq.dequeued ++ (s.machine.waiting queue).take 1 ∧
      Inv { s with machine := m, ticks := 0 } (s.machine.waiting queue).tail := by
  obtain ⟨m, hrejoin, hqueued, hcurrent, hidle, hdequeued, hslices, hmem⟩ := h.rejoin
  have hswitch' : ∀ (m : Machine) (p : Nat), (if p ≠ m.current then procRun m p else m) = { m with current := p } := by
    intro m p
    by_cases hp : p ≠ m.current
    · rw [if_pos hp, hswitch m p hp]
    · have heq : p = m.current := not_not.1 hp
      rw [if_neg hp, heq]
  have hcall : RoundRobin.schedule procRun s.machine = (rrPickNext m).elim (pure { m with current := m.idleproc })
      fun next => rrDequeue m next >>= fun m => pure { m with current := next } := by
    have hdef : RoundRobin.schedule procRun s.machine =
        ((if (s.machine.unflag.proc s.machine.current).state = .runnable then
          schedClassEnqueue s.machine.unflag s.machine.current else pure s.machine.unflag) >>= fun m =>
          (rrPickNext m).elim (pure (if m.idleproc ≠ m.current then procRun m m.idleproc else m)) fun next =>
            rrDequeue m next >>= fun m => pure (if next ≠ m.current then procRun m next else m)) := by
      unfold RoundRobin.schedule
      refine bind_congr fun m => ?_
      cases rrPickNext m <;> rfl
    rw [hdef, hrejoin, bind_done]
    simp only [hswitch']
  rw [hcall]
  cases hwaiting : s.machine.waiting queue with
  | nil =>
      rw [hwaiting] at hqueued hmem
      rw [hqueued.pickNext_nil]
      refine ⟨_, rfl, hidle, ?_, ?_⟩
      · rw [List.take_nil, List.append_nil]
        exact hdequeued
      · refine ⟨hqueued.congr rfl fun _ _ => ⟨rfl, rfl⟩, fun p => ?_, hslices, ?_, ?_, fun hne => absurd rfl hne,
          fun _ hticks => absurd hticks (lt_irrefl 0)⟩
        · rw [List.tail_nil, hmem p]
          exact ⟨fun hp => ⟨hp.1, hp.2.1, hp.2.2, hp.2.2⟩, fun hp => ⟨hp.1, hp.2.1, hp.2.2.1⟩⟩
        · exact hidle.symm ▸ h.idle
        · exact hidle.symm ▸ h.idle
  | cons p rest =>
      rw [hwaiting] at hqueued hmem
      obtain ⟨hdequeue, hqueued'⟩ := hqueued.dequeue
      obtain ⟨hout, -⟩ := List.nodup_cons.1 hqueued.nodup
      obtain ⟨hlow, hhigh⟩ := hqueued.slices p List.mem_cons_self
      rw [hqueued.pickNext_cons, Option.elim_some, hdequeue]
      refine ⟨_, rfl, rfl, ?_, ?_⟩
      · exact congrArg (fun ps => ps ++ [p]) hdequeued
      · refine ⟨hqueued'.congr rfl fun _ _ => ⟨rfl, rfl⟩, fun q => ?_, hslices, hqueued.alive p List.mem_cons_self, ?_,
          fun _ => ⟨fun _ => ?_, fun hzero => ?_⟩, fun _ hticks => absurd hticks (lt_irrefl 0)⟩
        · have hq := hmem q
          constructor
          · intro hin
            obtain ⟨halive, hrun, hne⟩ := hq.1 (List.mem_cons_of_mem p hin)
            refine ⟨halive, hrun, hne, fun heq => hout ?_⟩
            have hqp : q = p := heq
            exact hqp ▸ hin
          · rintro ⟨halive, hrun, hne, hqp⟩
            exact (List.mem_cons.1 (hq.2 ⟨halive, hrun, hne⟩)).resolve_left hqp
        · exact hidle.symm ▸ h.idle
        · have hzero : ((0 : Nat) : Int) + (m.proc p).timeSlice = (m.proc p).timeSlice := by omega
          exact hzero.trans_le hhigh
        · exact absurd hzero hlow.ne'

theorem waiting_eq (m : Machine) (queue : List Nat) : ∃ e, m.waiting queue = queue ++ e := by
  unfold Machine.waiting
  split
  · exact ⟨_, rfl⟩
  · exact ⟨[], (List.append_nil queue).symm⟩

/-! ## The other actions -/

theorem Inv.alloc (h : Inv s queue) (hp : p ∉ s.alive) (hstate : proc.state = .uninit) (hslice : 0 ≤ proc.timeSlice) :
    Inv { s with machine := s.machine.alloc p proc, alive := insert p s.alive } queue := by
  have hne : ∀ q ∈ s.alive, q ≠ p := fun q hq heq => hp (heq ▸ hq)
  have hproc : ∀ q, q ≠ p → (s.machine.alloc p proc).proc q = s.machine.proc q :=
    fun q hq => setProc_of_ne s.machine proc hq
  have hself : (s.machine.alloc p proc).proc p = proc := setProc_self s.machine p proc
  have hnew : p ∉ queue := fun hin => hp (h.queued.alive p hin)
  have hcurrent := hproc _ (hne _ h.current)
  refine ⟨⟨ring_listInit_of_not_mem h.queued.ring (runLink_not_mem hnew), fun q hq hin => ?_, fun q hq => ?_,
    h.queued.procNum, fun q hq => ?_, h.queued.maxSlice, fun q hq => ?_, h.queued.fifo⟩, fun q => ?_, fun q hq => ?_,
    Finset.mem_insert_of_mem h.current, Finset.mem_insert_of_mem h.idle, fun hne' => ?_, fun heq hticks => ?_⟩
  · by_cases hqp : q = p
    · subst hqp
      exact listEmpty_listInit s.machine.rq.links (.runLink q)
    · have hold := h.queued.selfLinked q ((Finset.mem_insert.1 hq).resolve_left hqp) hin
      have hnode : RunNode.runLink q ≠ .runLink p := fun heq => hqp (RunNode.runLink.inj heq)
      have hnext : (listInit s.machine.rq.links (.runLink p)).next (.runLink q) =
          s.machine.rq.links.next (.runLink q) := by
        simp [listInit, Links.setNext_next, hnode]
      exact hnext.trans hold
  · exact Finset.mem_insert_of_mem (h.queued.alive q hq)
  · rw [hproc q (hne q (h.queued.alive q hq))]
    exact h.queued.inRq q hq
  · rw [hproc q (hne q (h.queued.alive q hq))]
    exact h.queued.slices q hq
  · rw [h.ready q]
    by_cases hqp : q = p
    · subst hqp
      refine ⟨fun hq => absurd hq.1 hp, fun hq => ?_⟩
      have hrun := hq.2.1
      rw [hself, hstate] at hrun
      cases hrun
    · unfold Machine.Ready
      rw [hproc q hqp, Finset.mem_insert, or_iff_right hqp]
      rfl
  · rcases Finset.mem_insert.1 hq with rfl | hq
    · rw [hself]
      exact hslice
    · rw [hproc q (hne q hq)]
      exact h.slices q hq
  · have hrunning := h.running hne'
    rw [← hcurrent] at hrunning
    exact hrunning
  · have hidling := h.idling heq hticks
    rw [← hcurrent] at hidling
    exact hidling

theorem Inv.free (h : Inv s queue) (hcurrent : p ≠ s.machine.current) (hidle : p ≠ s.machine.idleproc)
    (hempty : listEmpty s.machine.rq.links (.runLink p)) : Inv { s with alive := s.alive.erase p } queue := by
  have hout : p ∉ queue := fun hin => h.queued.not_listEmpty hin hempty
  have hne : ∀ q ∈ queue, q ≠ p := fun q hq heq => hout (heq ▸ hq)
  refine ⟨⟨h.queued.ring, fun q hq => h.queued.selfLinked q (Finset.mem_of_mem_erase hq),
    fun q hq => Finset.mem_erase.2 ⟨hne q hq, h.queued.alive q hq⟩, h.queued.procNum, h.queued.inRq, h.queued.maxSlice,
    h.queued.slices, h.queued.fifo⟩, fun q => ?_, fun q hq => h.slices q (Finset.mem_of_mem_erase hq),
    Finset.mem_erase.2 ⟨hcurrent.symm, h.current⟩, Finset.mem_erase.2 ⟨hidle.symm, h.idle⟩, h.running, h.idling⟩
  constructor
  · intro hq
    have hready := (h.ready q).1 hq
    exact ⟨Finset.mem_erase.2 ⟨hne q hq, hready.1⟩, hready.2⟩
  · rintro ⟨hq, hready⟩
    exact (h.ready q).2 ⟨Finset.mem_of_mem_erase hq, hready⟩

/-- The current process stops waiting for nothing: it was not in the queue, and it still is not. -/
theorem Inv.setState (h : Inv s queue) (state : ProcState) (waitState : UInt32) :
    Inv { s with machine := s.machine.setState state waitState } queue :=
  h.setProc rfl rfl id ⟨fun hready => absurd rfl hready.2.2, fun hready => absurd rfl hready.2.2⟩

theorem rrProcTick_spec (hslice : 0 ≤ proc.timeSlice) :
    (rrProcTick proc).state = proc.state ∧ (rrProcTick proc).inRq = proc.inRq ∧ 0 ≤ (rrProcTick proc).timeSlice ∧
      (0 < (rrProcTick proc).timeSlice → (rrProcTick proc).timeSlice + 1 = proc.timeSlice) ∧
      ((rrProcTick proc).timeSlice = 0 → (rrProcTick proc).needResched = true) := by
  unfold rrProcTick
  by_cases hleft : proc.timeSlice > 0
  · rw [if_pos hleft]
    by_cases hlast : proc.timeSlice - 1 = 0
    · simp [hlast]
    · simp only [hlast, if_false]
      exact ⟨trivial, trivial, by omega, fun _ => by omega, fun hzero => hzero.elim⟩
  · have hzero : proc.timeSlice = 0 := by omega
    simp [hzero]

theorem Inv.tick (h : Inv s queue) :
    Inv { s with machine := schedClassProcTick s.machine s.machine.current, ticks := s.ticks + 1 } queue := by
  have hout : ∀ q ∈ queue, q ≠ s.machine.current := fun q hq => ((h.ready q).1 hq).2.2.2
  have hslice := h.slices _ h.current
  obtain ⟨v, hv, hstate, hnonneg, hrunning, hidling⟩ : ∃ v : RrProc,
      schedClassProcTick s.machine s.machine.current = s.machine.setProc s.machine.current v ∧
      v.state = (s.machine.proc s.machine.current).state ∧ 0 ≤ v.timeSlice ∧
      (s.machine.current ≠ s.machine.idleproc →
        (0 < v.timeSlice → v.timeSlice + 1 = (s.machine.proc s.machine.current).timeSlice) ∧
        (v.timeSlice = 0 → v.needResched = true)) ∧
      (s.machine.current = s.machine.idleproc → v.needResched = true) := by
    unfold schedClassProcTick
    by_cases hidle : s.machine.current ≠ s.machine.idleproc
    · obtain ⟨hstate, -, hnonneg, hleft, hused⟩ := rrProcTick_spec hslice
      rw [if_pos hidle]
      exact ⟨_, rfl, hstate, hnonneg, fun _ => ⟨hleft, hused⟩, fun heq => absurd heq hidle⟩
    · rw [if_neg hidle]
      exact ⟨_, rfl, rfl, hslice, fun hne => absurd hne hidle, fun _ => rfl⟩
  rw [hv]
  have hself := setProc_self s.machine s.machine.current v
  refine ⟨h.queued.congr rfl fun q hq => ?_, fun q => ?_, fun q hq => ?_, h.current, h.idle, fun hne => ?_,
    fun heq _ => ?_⟩
  · rw [setProc_of_ne s.machine v (hout q hq)]
    exact ⟨rfl, rfl⟩
  · rw [h.ready q]
    by_cases hq : q = s.machine.current
    · exact ⟨fun hready => absurd hq hready.2.2.2, fun hready => absurd hq hready.2.2.2⟩
    · unfold Machine.Ready
      rw [setProc_of_ne s.machine v hq]
      rfl
  · by_cases hqc : q = s.machine.current
    · subst hqc
      rw [hself]
      exact hnonneg
    · rw [setProc_of_ne s.machine v hqc]
      exact h.slices q hq
  · obtain ⟨hleft, hused⟩ := hrunning hne
    have hbound := (h.running hne).1
    have hcurr : (s.machine.setProc s.machine.current v).proc (s.machine.setProc s.machine.current v).current = v :=
      hself
    dsimp only
    rw [hcurr]
    refine ⟨fun hpos => ?_, hused⟩
    have hone := hleft hpos
    have hsum := hbound (by omega)
    have hmax : (s.machine.setProc s.machine.current v).rq.maxTimeSlice = s.machine.rq.maxTimeSlice := rfl
    rw [hmax]
    push_cast
    omega
  · have hcurr : (s.machine.setProc s.machine.current v).proc (s.machine.setProc s.machine.current v).current = v :=
      hself
    dsimp only
    rw [hcurr]
    exact hidling heq

/-! ## Runs -/

/-- The processes that have left the queue were in front of the others, and new ones have come to its end. -/
def Served (queue picked queue' : List Nat) : Prop := ∃ e, queue ++ e = picked ++ queue'

theorem Served.refl (queue : List Nat) : Served queue [] queue := ⟨[], List.append_nil queue⟩

theorem Served.trans {queue'' d d' : List Nat} (h : Served queue d queue') (h' : Served queue' d' queue'') :
    Served queue (d ++ d') queue'' := by
  obtain ⟨e, he⟩ := h
  obtain ⟨e', he'⟩ := h'
  refine ⟨e ++ e', ?_⟩
  calc queue ++ (e ++ e') = queue ++ e ++ e' := (List.append_assoc _ _ _).symm
    _ = d ++ queue' ++ e' := by rw [he]
    _ = d ++ (d' ++ queue'') := by rw [List.append_assoc, he']
    _ = d ++ d' ++ queue'' := (List.append_assoc _ _ _).symm

/-- A process of the queue is the one that is picked after all that were in front of it. -/
theorem Served.picked {d : List Nat} (h : Served (l ++ p :: r) d queue') (hlen : l.length < d.length) :
    d[l.length]? = some p := by
  obtain ⟨e, he⟩ := h
  calc d[l.length]? = (d ++ queue')[l.length]? := (List.getElem?_append_left hlen).symm
    _ = (l ++ p :: (r ++ e))[l.length]? := by rw [← he, List.append_assoc, List.cons_append]
    _ = some p := by simp

theorem Inv.step (hswitch : Switches procRun) (h : Inv s queue) (hstep : Step procRun s op t) :
    ∃ d queue', Inv t queue' ∧ t.machine.rq.dequeued = s.machine.rq.dequeued ++ d ∧ Served queue d queue' := by
  have hstay : ∀ t, Inv t queue → t.machine.rq.dequeued = s.machine.rq.dequeued →
      ∃ d queue', Inv t queue' ∧ t.machine.rq.dequeued = s.machine.rq.dequeued ++ d ∧ Served queue d queue' := by
    intro t ht hdequeued
    exact ⟨[], queue, ht, by rw [List.append_nil, hdequeued], Served.refl queue⟩
  cases op with
  | alloc p proc =>
      obtain ⟨hp, hstate, hslice, rfl⟩ := hstep
      exact hstay _ (h.alloc hp hstate hslice) rfl
  | wakeup p =>
      obtain ⟨hp, m, hwake, rfl⟩ := hstep
      have hzombie : (s.machine.proc p).state ≠ .zombie := by
        obtain ⟨_, hassert, -⟩ := bind_eq_done.1 hwake
        exact assert_eq_done.1 hassert
      obtain ⟨m', e, hwake', hinv, hdequeued⟩ := h.wakeup hp hzombie
      rw [hwake] at hwake'
      cases hwake'
      exact ⟨[], queue ++ e, hinv, by rw [List.append_nil, hdequeued], e, rfl⟩
  | sleep waitState =>
      cases hstep
      exact hstay _ (h.setState .sleeping waitState) rfl
  | exit =>
      cases hstep
      exact hstay _ (h.setState .zombie _) rfl
  | yield =>
      cases hstep
      refine hstay _ (h.setProc rfl rfl (fun _ => rfl) ⟨fun hready => ?_, fun hready => ?_⟩) rfl
      · exact absurd rfl hready.2.2
      · exact absurd rfl hready.2.2
  | schedule =>
      obtain ⟨m, hcall, rfl⟩ := hstep
      obtain ⟨m', hcall', -, hdequeued, hinv⟩ := h.schedule hswitch
      rw [hcall] at hcall'
      cases hcall'
      obtain ⟨e, he⟩ := waiting_eq s.machine queue
      refine ⟨_, _, hinv, hdequeued, e, ?_⟩
      rw [← he, ← List.drop_one, List.take_append_drop]
  | tick =>
      cases hstep
      refine hstay _ h.tick ?_
      unfold schedClassProcTick
      split
      · rfl
      · rfl
  | free p =>
      obtain ⟨⟨hcurrent, hidle, hempty⟩, rfl⟩ := hstep
      exact hstay _ (h.free hcurrent hidle hempty) rfl

theorem Inv.run (hswitch : Switches procRun) {ops : List Op} (h : Inv s queue) (hrun : Run (Step procRun) s ops t) :
    ∃ d queue', Inv t queue' ∧ t.machine.rq.dequeued = s.machine.rq.dequeued ++ d ∧ Served queue d queue' := by
  refine hrun.invariant
    (fun t => ∃ d queue', Inv t queue' ∧ t.machine.rq.dequeued = s.machine.rq.dequeued ++ d ∧ Served queue d queue')
    ?_ ⟨[], queue, h, (List.append_nil _).symm, Served.refl queue⟩
  rintro t op u ⟨d, queue', hinv, hdequeued, hserved⟩ hstep
  obtain ⟨d', queue'', hinv', hdequeued', hserved'⟩ := hinv.step hswitch hstep
  refine ⟨d ++ d', queue'', hinv', ?_, hserved.trans hserved'⟩
  rw [hdequeued', hdequeued, List.append_assoc]

theorem start_inv (links : Links RunNode) {proc : Nat → RrProc} (hmax : 0 < maxSlice)
    (hidle : 0 ≤ (proc idle).timeSlice) : Inv (start links proc idle maxSlice) [] := by
  have hne : RunNode.runLink idle ≠ .runList := by
    intro heq
    cases heq
  refine ⟨⟨ring_listInit _ _, fun p hp _ => ?_, fun p hp => (List.not_mem_nil hp).elim, rfl,
    fun p hp => (List.not_mem_nil hp).elim, hmax, fun p hp => (List.not_mem_nil hp).elim, rfl⟩, fun p => ?_,
    fun p hp => ?_, Finset.mem_singleton_self idle, Finset.mem_singleton_self idle, fun hne => absurd rfl hne,
    fun _ hticks => absurd hticks (lt_irrefl 0)⟩
  · rw [Finset.mem_singleton.1 hp]
    simp [start, rrInit, listEmpty, listInit, Links.setNext_next, hne]
  · refine ⟨fun hp => (List.not_mem_nil hp).elim, fun hp => absurd (Finset.mem_singleton.1 hp.1) hp.2.2.1⟩
  · rw [Finset.mem_singleton.1 hp]
    exact hidle

/-- In every state of the scheduler the run list is a queue of the processes that wait for the processor, each of
them once. No assertion of the class fails in the next call. The processes have been picked in the order in which
they were enqueued, and a process of the queue will be picked after those in front of it. A process has its flag set
when it has run for the longest time slice. -/
theorem round_robin_fifo {links : Links RunNode} {proc : Nat → RrProc} {ops : List Op} (hswitch : Switches procRun)
    (hmax : 0 < maxSlice) (hidle : 0 ≤ (proc idle).timeSlice)
    (hrun : Run (Step procRun) (start links proc idle maxSlice) ops s) :
    ∃ queue, Ring s.machine.rq.links .runList (queue.map .runLink) ∧ queue.Nodup ∧
      (∀ p, p ∈ queue ↔ p ∈ s.alive ∧ s.machine.Ready p) ∧ s.machine.rq.procNum = queue.length ∧
      s.machine.rq.enqueued = s.machine.rq.dequeued ++ queue ∧
      (∀ p ∈ s.alive, (s.machine.proc p).state ≠ .zombie → ∃ m, wakeupProc s.machine p = done m) ∧
      (∃ m, RoundRobin.schedule procRun s.machine = done m ∧
        m.current = (s.machine.waiting queue).headD s.machine.idleproc ∧
        m.rq.dequeued = s.machine.rq.dequeued ++ (s.machine.waiting queue).take 1) ∧
      (∀ l p r ops' t, queue = l ++ p :: r → Run (Step procRun) s ops' t →
        ∃ picked, t.machine.rq.dequeued = s.machine.rq.dequeued ++ picked ∧
          (l.length < picked.length → picked[l.length]? = some p)) ∧
      (s.machine.rq.maxTimeSlice ≤ s.ticks → (s.machine.proc s.machine.current).needResched = true) := by
  obtain ⟨-, queue, hinv, -, -⟩ := (start_inv links hmax hidle).run hswitch hrun
  refine ⟨queue, hinv.queued.ring, hinv.queued.nodup, hinv.ready, hinv.queued.procNum, hinv.queued.fifo,
    fun p hp hzombie => ?_, ?_, fun l p r ops' t hqueue hrun' => ?_, fun hticks => ?_⟩
  · obtain ⟨m, -, hwake, -⟩ := hinv.wakeup hp hzombie
    exact ⟨m, hwake⟩
  · obtain ⟨m, hcall, hcurrent, hdequeued, -⟩ := hinv.schedule hswitch
    exact ⟨m, hcall, hcurrent, hdequeued⟩
  · obtain ⟨d, queue', -, hdequeued, hserved⟩ := hinv.run hswitch hrun'
    exact ⟨d, hdequeued, fun hlen => (hqueue ▸ hserved).picked hlen⟩
  · have hmax := hinv.queued.maxSlice
    by_cases hcurrent : s.machine.current = s.machine.idleproc
    · exact hinv.idling hcurrent (by omega)
    · obtain ⟨hleft, hused⟩ := hinv.running hcurrent
      have hslice := hinv.slices _ hinv.current
      by_cases hpos : 0 < (s.machine.proc s.machine.current).timeSlice
      · have hsum := hleft hpos
        omega
      · exact hused (by omega)

/-- `proc_run`, as far as the scheduler sees it. -/
def switchTo (m : Machine) (p : Nat) : Machine := { m with current := p }

/-- A new process, as `alloc_proc` leaves it. -/
def newProc : RrProc :=
  { state := .uninit, waitState := 0, needResched := false, timeSlice := 0, inRq := false }

/-- The idle process before the first switch. -/
def idleMachine : Sys := start ⟨id, id⟩ (fun _ => { newProc with state := .runnable }) 0 5

/-- A process has been made. -/
def twoProcs : Sys :=
  { idleMachine with machine := idleMachine.machine.alloc 1 newProc, alive := insert 1 idleMachine.alive }

/-- The new process runs. -/
def newRuns : Sys :=
  { twoProcs with
    machine := switchTo (((twoProcs.machine.setProc 1 newProc.awake).linkIn 1).unflag.linkOut 1 0) 1 }

theorem newRuns_run : Run (Step switchTo) idleMachine [.alloc 1 newProc, .wakeup 1, .schedule] newRuns := by
  have halloc : Step switchTo idleMachine (.alloc 1 newProc) twoProcs := ⟨by decide, rfl, le_refl 0, rfl⟩
  have hwake : Step switchTo twoProcs (.wakeup 1)
      { twoProcs with machine := (twoProcs.machine.setProc 1 newProc.awake).linkIn 1 } :=
    ⟨by decide, _, rfl, rfl⟩
  have hpick : Step switchTo { twoProcs with machine := (twoProcs.machine.setProc 1 newProc.awake).linkIn 1 } .schedule
      newRuns :=
    ⟨_, rfl, rfl⟩
  exact ((Run.nil.snoc halloc).snoc hwake).snoc hpick

theorem round_robin_fifo_newRuns :
    ∃ queue, Ring newRuns.machine.rq.links .runList (queue.map .runLink) ∧ queue.Nodup ∧
      (∀ p, p ∈ queue ↔ p ∈ newRuns.alive ∧ newRuns.machine.Ready p) ∧
      newRuns.machine.rq.procNum = queue.length ∧
      newRuns.machine.rq.enqueued = newRuns.machine.rq.dequeued ++ queue ∧
      (∀ p ∈ newRuns.alive, (newRuns.machine.proc p).state ≠ .zombie → ∃ m, wakeupProc newRuns.machine p = done m) ∧
      (∃ m, RoundRobin.schedule switchTo newRuns.machine = done m ∧
        m.current = (newRuns.machine.waiting queue).headD newRuns.machine.idleproc ∧
        m.rq.dequeued = newRuns.machine.rq.dequeued ++ (newRuns.machine.waiting queue).take 1) ∧
      (∀ l p r ops' t, queue = l ++ p :: r → Run (Step switchTo) newRuns ops' t →
        ∃ picked, t.machine.rq.dequeued = newRuns.machine.rq.dequeued ++ picked ∧
          (l.length < picked.length → picked[l.length]? = some p)) ∧
      (newRuns.machine.rq.maxTimeSlice ≤ newRuns.ticks →
        (newRuns.machine.proc newRuns.machine.current).needResched = true) :=
  round_robin_fifo (fun _ _ _ => rfl) (by decide) (le_refl 0) newRuns_run

end TriOS.RoundRobin
