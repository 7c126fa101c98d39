import Mathlib
import TriOS.Library.Transition
import TriOS.Libs.List
import TriOS.Process.Pid

/-!
# proc.c — get_pid in all runs of do_fork and process removal

`get_pid` walks over `proc_list` through its links here. `none` is the head of the list, and
`some p` the link of the process descriptor `p`.
-/

namespace TriOS

open CircularList Outcome Transition

/-- The loop of `get_pid` from the node `le` on. -/
def getPidLoop (procList : Links (Option Nat)) (pid : Nat → Int) :
    Nat → Option Nat → Int → Int → Outcome (Int × Int)
  | 0, _, _, _ => Outcome.fuel
  | bound + 1, le, lastPid, nextSafe =>
      match listNext procList le with
      | none => pure (lastPid, nextSafe)
      | some p =>
          if pid p = lastPid then
            if lastPid + 1 ≥ nextSafe then
              -- `goto repeat`
              let lastPid := if lastPid + 1 ≥ maxPid then 1 else lastPid + 1
              getPidLoop procList pid bound none lastPid maxPid
            else getPidLoop procList pid bound (some p) (lastPid + 1) nextSafe
          else if pid p > lastPid ∧ nextSafe > pid p then
            getPidLoop procList pid bound (some p) lastPid (pid p)
          else getPidLoop procList pid bound (some p) lastPid nextSafe

/-- `get_pid` over the links of `proc_list`. -/
def getPidLinked (bound : Nat) (procList : Links (Option Nat)) (pid : Nat → Int)
    (lastPid nextSafe : Int) : Outcome (Int × Int) :=
  if lastPid + 1 ≥ maxPid then getPidLoop procList pid bound none 1 maxPid
  else if lastPid + 1 ≥ nextSafe then getPidLoop procList pid bound none (lastPid + 1) maxPid
  else pure (lastPid + 1, nextSafe)

/-! ## The search ends -/

section Search

variable {pids all : List Int} {lastPid nextSafe last safe free : Int} {bound : Nat}

/-- How often `last_pid` is incremented, from 1 again after `MAX_PID - 1`, until it is `free`. -/
def pidDistance (free lastPid : Int) : Int :=
  if lastPid ≤ free then free - lastPid else maxPid - 1 - lastPid + free

theorem pidDistance_nonneg (hfree : 1 ≤ free) (hlt : lastPid < maxPid) :
    0 ≤ pidDistance free lastPid := by
  unfold pidDistance
  split <;> omega

/-- A scan to the end of the list ends below its bound. -/
theorem pidScan_lt (hlt : lastPid < nextSafe) (hmax : nextSafe ≤ maxPid)
    (h : pidScan pids lastPid nextSafe = (last, safe, false)) : last < safe ∧ safe ≤ maxPid := by
  induction pids generalizing lastPid nextSafe with
  | nil =>
      cases h
      exact ⟨hlt, hmax⟩
  | cons pid pids ih =>
      unfold pidScan at h
      split at h
      · split at h
        · cases h
        · exact ih (by omega) hmax h
      · split at h
        · exact ih (by omega) (by omega) h
        · exact ih hlt hmax h

/-- A scan that starts again has come nearer to a pid that is free. -/
theorem pidScan_distance (hfree : 1 ≤ free ∧ free < maxPid) (hnot : free ∉ pids)
    (hpos : 1 ≤ lastPid) (hlt : lastPid < nextSafe) (hmax : nextSafe ≤ maxPid)
    (h : pidScan pids lastPid nextSafe = (last, safe, true)) :
    pidDistance free last < pidDistance free lastPid := by
  induction pids generalizing lastPid nextSafe with
  | nil => cases h
  | cons pid pids ih =>
      simp only [List.mem_cons, not_or] at hnot
      have hih := fun {l s : Int} => @ih l s hnot.2
      unfold pidScan at h
      split at h
      next heq =>
        have hne : lastPid ≠ free := fun hc => hnot.1 (hc.symm.trans heq.symm)
        split at h
        next =>
          cases h
          unfold pidDistance
          split_ifs <;> omega
        next hsafe =>
          have hnear := hih (by omega) (by omega) hmax h
          have hstep : pidDistance free (lastPid + 1) < pidDistance free lastPid := by
            unfold pidDistance
            split_ifs <;> omega
          exact hnear.trans hstep
      next =>
        split at h
        · exact hih hpos (by omega) (by omega) h
        · exact hih hpos hlt hmax h

/-- As long as some pid is free the search ends, with a pid below `MAX_PID`. -/
theorem pidRepeat_returns (hfree : 1 ≤ free ∧ free < maxPid) (hnot : free ∉ pids)
    (hpos : 1 ≤ lastPid) (hlt : lastPid < maxPid) (hbound : pidDistance free lastPid < bound) :
    ∃ last safe, pidRepeat bound pids lastPid maxPid = done (last, safe) ∧ last < maxPid := by
  induction bound generalizing lastPid with
  | zero =>
      have := pidDistance_nonneg hfree.1 hlt
      omega
  | succ bound ih =>
      rcases hscan : pidScan pids lastPid maxPid with ⟨last, safe, again⟩
      cases again with
      | true =>
          rcases pidScan_again hpos hscan with ⟨hpos', hlt', rfl⟩
          have hnear := pidScan_distance hfree hnot hpos hlt le_rfl hscan
          obtain ⟨last', safe', hrep, hmax⟩ := ih hpos' hlt' (by omega)
          refine ⟨last', safe', ?_, hmax⟩
          simp only [pidRepeat, hscan]
          exact hrep
      | false =>
          obtain ⟨hlast, hsafe⟩ := pidScan_lt hlt le_rfl hscan
          refine ⟨last, safe, ?_, by omega⟩
          simp only [pidRepeat, hscan]
          rfl

/-- Fewer processes than `MAX_PROCESS` leave a pid free. -/
theorem exists_free_pid (hlen : (pids.length : Int) < maxProcess) :
    ∃ free, (1 ≤ free ∧ free < maxPid) ∧ free ∉ pids := by
  have hcard : pids.toFinset.card < (Finset.Ico 1 maxPid).card := by
    have hle := List.toFinset_card_le pids
    have hrange : (Finset.Ico 1 maxPid).card = 8191 := by
      rw [Int.card_Ico]
      rfl
    rw [hrange]
    unfold maxProcess at hlen
    omega
  obtain ⟨free, hmem, hnot⟩ := Finset.exists_mem_notMem_of_card_lt_card hcard
  exact ⟨free, Finset.mem_Ico.1 hmem, fun hc => hnot (List.mem_toFinset.2 hc)⟩

/-- `get_pid` over the list of the pids returns a free pid. -/
theorem getPid_returns (hlen : (pids.length : Int) < maxProcess) (hpos : 1 ≤ lastPid)
    (hgap : PidGap pids lastPid nextSafe) :
    ∃ last safe, getPid 8192 pids lastPid nextSafe = done (last, safe) ∧
      (1 ≤ last ∧ last < maxPid) ∧ last ∉ pids ∧ PidGap pids last safe := by
  obtain ⟨free, hfree, hnot⟩ := exists_free_pid hlen
  have hnear : ∀ l, 1 ≤ l → l < maxPid → pidDistance free l < (8192 : Nat) := by
    intro l hl hlt
    have hm : maxPid = 8192 := rfl
    unfold pidDistance
    split <;> omega
  have hret : ∃ last safe, getPid 8192 pids lastPid nextSafe = done (last, safe) ∧
      last < maxPid := by
    unfold getPid
    split
    · exact pidRepeat_returns hfree hnot le_rfl (by decide) (hnear 1 le_rfl (by decide))
    · split
      · exact pidRepeat_returns hfree hnot (by omega) (by omega) (hnear _ (by omega) (by omega))
      · exact ⟨_, _, rfl, by omega⟩
  obtain ⟨last, safe, hrun, hmax⟩ := hret
  obtain ⟨hlast, hnew, hgap'⟩ := getPid_spec hpos hgap hrun
  exact ⟨last, safe, hrun, ⟨hlast, hmax⟩, hnew, hgap'⟩

end Search
/-! ## The walk over the links -/

section Links

variable {procList : Links (Option Nat)} {pid : Nat → Int} {xs pre post : List Nat}
  {lastPid nextSafe last safe : Int} {bound : Nat}

/-- From a node of the list the loop does what the scan of the remaining pids does, in a number of
steps that does not depend on its bound. -/
theorem getPidLoop_scan (r : Ring procList none ((pre ++ post).map some)) {again : Bool}
    (h : pidScan (post.map pid) lastPid nextSafe = (last, safe, again)) :
    ∃ k, ∀ bound, getPidLoop procList pid (bound + k) ((pre.map some).getLastD none) lastPid
      nextSafe = if again then getPidLoop procList pid bound none last safe
        else done (last, safe) := by
  induction post generalizing pre lastPid nextSafe with
  | nil =>
      cases h
      have hnext : listNext procList ((pre.map some).getLastD none) = none := by
        rw [List.append_nil] at r
        have r' : Ring procList none (pre.map some ++ []) := by simpa using r
        exact r'.next_getLastD
      refine ⟨1, fun bound => ?_⟩
      simp only [getPidLoop, hnext]
      rfl
  | cons p post ih =>
      have hnext : listNext procList ((pre.map some).getLastD none) = some p := by
        rw [List.map_append] at r
        exact r.next_getLastD
      have hlast : ((pre ++ [p]).map some).getLastD none = some p := by
        rw [List.map_append]
        exact getLastD_concat _ _ _
      have hih := fun {l s : Int} => @ih (pre ++ [p]) l s (by simpa using r)
      simp only [hlast] at hih
      rw [List.map_cons] at h
      unfold pidScan at h
      split at h
      next heq =>
        split at h
        next hsafe =>
          cases h
          refine ⟨1, fun bound => ?_⟩
          simp only [getPidLoop, hnext, if_pos heq, if_pos hsafe]
          rfl
        next hsafe =>
          obtain ⟨k, hk⟩ := hih h
          refine ⟨k + 1, fun bound => ?_⟩
          rw [← hk bound, ← Nat.add_assoc]
          simp only [getPidLoop, hnext, if_pos heq, if_neg hsafe]
      next heq =>
        split at h
        next hin =>
          obtain ⟨k, hk⟩ := hih h
          refine ⟨k + 1, fun bound => ?_⟩
          rw [← hk bound, ← Nat.add_assoc]
          simp only [getPidLoop, hnext, if_neg heq, if_pos hin]
        next hin =>
          obtain ⟨k, hk⟩ := hih h
          refine ⟨k + 1, fun bound => ?_⟩
          rw [← hk bound, ← Nat.add_assoc]
          simp only [getPidLoop, hnext, if_neg heq, if_neg hin]

theorem getPidLoop_repeat (r : Ring procList none (xs.map some))
    (h : pidRepeat bound (xs.map pid) lastPid nextSafe = done (last, safe)) :
    Returns (fun bound => getPidLoop procList pid bound none lastPid nextSafe) (last, safe) := by
  induction bound generalizing lastPid nextSafe with
  | zero => cases h
  | succ bound ih =>
      rcases hscan : pidScan (xs.map pid) lastPid nextSafe with ⟨l, s, again⟩
      obtain ⟨k, hk⟩ := @getPidLoop_scan _ _ [] xs _ _ _ _ r again hscan
      simp only [pidRepeat, hscan] at h
      cases again with
      | true =>
          obtain ⟨n, hn⟩ := ih h
          refine ⟨n + k, fun bound hbound => ?_⟩
          obtain ⟨m, rfl⟩ := Nat.exists_eq_add_of_le' ((Nat.le_add_left k n).trans hbound)
          exact (hk m).trans (hn m (by omega))
      | false =>
          cases h
          refine ⟨k, fun bound hbound => ?_⟩
          obtain ⟨m, rfl⟩ := Nat.exists_eq_add_of_le' hbound
          exact hk m

/-- Over an intact list `get_pid` gives what it gives over the pids of the list. -/
theorem getPidLinked_returns (r : Ring procList none (xs.map some))
    (h : getPid bound (xs.map pid) lastPid nextSafe = done (last, safe)) :
    Returns (fun bound => getPidLinked bound procList pid lastPid nextSafe) (last, safe) := by
  unfold getPid at h
  unfold getPidLinked
  split at h
  next hmax =>
    simp only [if_pos hmax]
    exact getPidLoop_repeat r h
  next hmax =>
    simp only [if_neg hmax]
    split at h
    next hsafe =>
      simp only [if_pos hsafe]
      exact getPidLoop_repeat r h
    next hsafe =>
      simp only [if_neg hsafe]
      exact ⟨0, fun _ _ => h⟩

end Links

/-! ## Runs -/

/-- The process descriptors as far as `get_pid` depends on them. `alive` are the descriptors that
are allocated. -/
structure PidSys where
  procList : Links (Option Nat)
  pid : Nat → Int
  alive : Finset Nat
  idleproc : Nat
  nrProcess : Int
  lastPid : Int
  nextSafe : Int

/-- `do_fork` with the descriptor `child` fails before `get_pid`, or it gets there and then
`copy_files` succeeds or fails; a process is removed. -/
inductive PidOp where
  | forkFail (child : Nat)
  | fork (child : Nat) (filesOk : Bool)
  | remove (p : Nat)
  deriving DecidableEq, Repr

/-- The pids after `alloc_proc` has returned the descriptor `child`. -/
def PidSys.allocPid (s : PidSys) (child : Nat) : Nat → Int :=
  Function.update s.pid child (-1)

/-- What a call does to the pids. When `copy_files` fails, the descriptor is freed although it is
linked. -/
def callPid (bound : Nat) (s : PidSys) : PidOp → Outcome PidSys
  | PidOp.forkFail child => pure { s with pid := s.allocPid child }
  | PidOp.fork child filesOk => do
      let (lastPid, nextSafe) ←
        getPidLinked bound s.procList (s.allocPid child) s.lastPid s.nextSafe
      pure
        { s with
          procList := listAdd s.procList none (some child)
          pid := Function.update (s.allocPid child) child lastPid
          alive := if filesOk then insert child s.alive else s.alive
          nrProcess := s.nrProcess + 1
          lastPid := lastPid
          nextSafe := nextSafe }
  | PidOp.remove p =>
      pure
        { s with
          procList := listDel s.procList (some p)
          alive := s.alive.erase p
          nrProcess := s.nrProcess - 1 }

/-- `alloc_proc` returns memory that is not in use, `do_fork` tests `nr_process`, and the process
that is removed is one that `do_fork` has made. -/
def PidOp.Allowed (s : PidSys) : PidOp → Prop
  | PidOp.forkFail child => child ∉ s.alive ∧ s.nrProcess < maxProcess
  | PidOp.fork child _ => child ∉ s.alive ∧ s.nrProcess < maxProcess
  | PidOp.remove p => p ∈ s.alive ∧ p ≠ s.idleproc

/-- `copy_files` does not fail. -/
def PidOp.CopiesFiles : PidOp → Prop
  | PidOp.forkFail _ => True
  | PidOp.fork _ filesOk => filesOk = true
  | PidOp.remove _ => True

/-- One allowed call that returns. -/
def PidStep (s : PidSys) (op : PidOp) (t : PidSys) : Prop :=
  op.Allowed s ∧ Returns (fun bound => callPid bound s op) t

variable {s t : PidSys} {xs : List Nat} {op : PidOp}

/-- The list `xs` of the processes that `do_fork` has made, in the order of `proc_list`. -/
structure PidList (s : PidSys) (xs : List Nat) : Prop where
  ring : Ring s.procList none (xs.map some)
  mem : ∀ p, p ∈ xs ↔ p ∈ s.alive ∧ p ≠ s.idleproc
  idle : s.idleproc ∈ s.alive ∧ s.pid s.idleproc = 0
  count : s.nrProcess = xs.length + 1
  range : ∀ p ∈ xs, 1 ≤ s.pid p ∧ s.pid p < maxPid
  distinct : ∀ p ∈ xs, ∀ q ∈ xs, s.pid p = s.pid q → p = q
  gap : 1 ≤ s.lastPid ∧ PidGap (xs.map s.pid) s.lastPid s.nextSafe

theorem PidList.nodup (h : PidList s xs) : xs.Nodup :=
  List.Nodup.of_map some (List.nodup_cons.1 h.ring.nodup).2

/-- `nr_process` is the number of processes. -/
theorem PidList.card (h : PidList s xs) : s.nrProcess = s.alive.card := by
  have halive : s.alive = insert s.idleproc xs.toFinset := by
    ext p
    simp only [Finset.mem_insert, List.mem_toFinset, h.mem]
    by_cases hp : p = s.idleproc
    · simp [hp, h.idle.1]
    · simp [hp]
  have hidle : s.idleproc ∉ xs.toFinset := by
    simp [h.mem]
  rw [halive, Finset.card_insert_of_notMem hidle, List.toFinset_card_of_nodup h.nodup, h.count]
  push_cast
  rfl

/-- A descriptor outside the list may be written to. -/
theorem PidList.map_update (h : PidList s xs) {child : Nat} (hchild : child ∉ s.alive) (v : Int) :
    (∀ p ∈ s.alive, Function.update s.pid child v p = s.pid p) ∧
      xs.map (Function.update s.pid child v) = xs.map s.pid := by
  have hsame : ∀ p ∈ s.alive, Function.update s.pid child v p = s.pid p := by
    intro p hp
    refine Function.update_of_ne ?_ _ _
    rintro rfl
    exact hchild hp
  exact ⟨hsame, List.map_congr_left fun p hp => hsame p ((h.mem p).1 hp).1⟩

/-- `get_pid` in `do_fork`. -/
theorem PidList.getPid (h : PidList s xs) {child : Nat} (hchild : child ∉ s.alive)
    (hroom : s.nrProcess < maxProcess) :
    ∃ last safe, Returns (fun bound => getPidLinked bound s.procList (s.allocPid child) s.lastPid
        s.nextSafe) (last, safe) ∧ (1 ≤ last ∧ last < maxPid) ∧ (∀ p ∈ s.alive, s.pid p ≠ last) ∧
      PidGap (xs.map s.pid) last safe := by
  have hlen : ((xs.map s.pid).length : Int) < maxProcess := by
    have hcount := h.count
    rw [List.length_map]
    omega
  obtain ⟨last, safe, hrun, hrange, hnew, hgap⟩ := getPid_returns hlen h.gap.1 h.gap.2
  refine ⟨last, safe, ?_, hrange, fun p hp hlast => ?_, hgap⟩
  · rw [← (h.map_update hchild (-1)).2] at hrun
    exact getPidLinked_returns h.ring hrun
  · by_cases hidle : p = s.idleproc
    · rw [hidle, h.idle.2] at hlast
      omega
    · exact hnew (hlast ▸ List.mem_map_of_mem ((h.mem p).2 ⟨hp, hidle⟩))
theorem PidList.forkFail (h : PidList s xs) {child : Nat} (hchild : child ∉ s.alive) :
    PidList { s with pid := s.allocPid child } xs := by
  obtain ⟨hsame, hmap⟩ := h.map_update hchild (-1)
  have hlist : ∀ p ∈ xs, s.allocPid child p = s.pid p := fun p hp =>
    hsame p ((h.mem p).1 hp).1
  refine ⟨h.ring, h.mem, ⟨h.idle.1, (hsame _ h.idle.1).trans h.idle.2⟩, h.count,
    fun p hp => ?_, fun p hp q hq heq => ?_, h.gap.1, ?_⟩
  · change 1 ≤ s.allocPid child p ∧ s.allocPid child p < maxPid
    rw [hlist p hp]
    exact h.range p hp
  · change s.allocPid child p = s.allocPid child q at heq
    rw [hlist p hp, hlist q hq] at heq
    exact h.distinct p hp q hq heq
  · change PidGap (xs.map (s.allocPid child)) s.lastPid s.nextSafe
    rw [PidSys.allocPid, hmap]
    exact h.gap.2

/-- A new process has the pid `last`, and the gap is the one behind it. -/
theorem PidList.fork (h : PidList s xs) {child : Nat} {last safe : Int} (hchild : child ∉ s.alive)
    (hrange : 1 ≤ last ∧ last < maxPid) (hnew : ∀ p ∈ s.alive, s.pid p ≠ last)
    (hgap : PidGap (xs.map s.pid) last safe) :
    PidList
      { s with
        procList := listAdd s.procList none (some child)
        pid := Function.update (s.allocPid child) child last
        alive := insert child s.alive
        nrProcess := s.nrProcess + 1
        lastPid := last
        nextSafe := safe } (child :: xs) := by
  have hpid : Function.update (s.allocPid child) child last = Function.update s.pid child last :=
    Function.update_idem _ _ _
  obtain ⟨hsame, hmap⟩ := h.map_update hchild last
  have hself : Function.update s.pid child last child = last := Function.update_self _ _ _
  have hout : child ∉ xs := fun hc => hchild ((h.mem child).1 hc).1
  have hne : child ≠ s.idleproc := fun hc => hchild (hc ▸ h.idle.1)
  have hold : ∀ p ∈ xs, Function.update s.pid child last p = s.pid p ∧ s.pid p ≠ last := fun p hp =>
    ⟨hsame p ((h.mem p).1 hp).1, hnew p ((h.mem p).1 hp).1⟩
  refine ⟨?_, fun p => ?_, ⟨Finset.mem_insert_of_mem h.idle.1, ?_⟩, ?_, ?_, ?_, hrange.1, ?_⟩
  · have r : Ring s.procList none ([] ++ xs.map some) := h.ring
    exact ring_listAdd r (by simpa using hout)
  · simp only [List.mem_cons, h.mem, Finset.mem_insert]
    constructor
    · rintro (rfl | hp)
      · exact ⟨Or.inl rfl, hne⟩
      · exact ⟨Or.inr hp.1, hp.2⟩
    · rintro ⟨rfl | hp, hidle⟩
      · exact Or.inl rfl
      · exact Or.inr ⟨hp, hidle⟩
  · simp only [hpid]
    exact (hsame _ h.idle.1).trans h.idle.2
  · simp only [List.length_cons, h.count]
    push_cast
    ring
  · simp only [hpid, List.mem_cons, forall_eq_or_imp, hself]
    refine ⟨hrange, fun p hp => ?_⟩
    rw [(hold p hp).1]
    exact h.range p hp
  · simp only [hpid, List.mem_cons, forall_eq_or_imp, hself]
    refine ⟨⟨fun _ => trivial, fun q hq heq => ?_⟩, fun p hp => ⟨fun heq => ?_, fun q hq heq => ?_⟩⟩
    · rw [(hold q hq).1] at heq
      exact absurd heq.symm (hold q hq).2
    · rw [(hold p hp).1] at heq
      exact absurd heq (hold p hp).2
    · rw [(hold p hp).1, (hold q hq).1] at heq
      exact h.distinct p hp q hq heq
  · simp only [hpid, List.map_cons, hself, hmap]
    intro pid hmem
    rcases List.mem_cons.1 hmem with rfl | hmem
    · exact Or.inl le_rfl
    · exact hgap pid hmem

theorem PidList.remove (h : PidList s xs) {p : Nat} (hp : p ∈ s.alive ∧ p ≠ s.idleproc) :
    ∃ ys, PidList
      { s with
        procList := listDel s.procList (some p)
        alive := s.alive.erase p
        nrProcess := s.nrProcess - 1 } ys := by
  obtain ⟨pre, post, rfl⟩ := List.append_of_mem ((h.mem p).2 hp)
  have hsub : ∀ q ∈ pre ++ post, q ∈ pre ++ p :: post := by
    intro q hq
    simp only [List.mem_append, List.mem_cons] at hq ⊢
    tauto
  have hnodup := h.nodup
  have hout : p ∉ pre ++ post := (List.nodup_middle.1 hnodup).notMem
  refine ⟨pre ++ post, ?_, fun q => ?_, ⟨?_, h.idle.2⟩, ?_, fun q hq => h.range q (hsub q hq),
    fun q hq x hx => h.distinct q (hsub q hq) x (hsub x hx), h.gap.1, fun pid hpid => ?_⟩
  · have r : Ring s.procList none (pre.map some ++ some p :: post.map some) := by
      simpa using h.ring
    rw [List.map_append]
    exact ring_listDel r
  · have hmem := h.mem q
    simp only [List.mem_append, List.mem_cons, Finset.mem_erase] at hmem hout ⊢
    constructor
    · intro hq
      have hqp : q ≠ p := by
        rintro rfl
        exact hout hq
      have hq' := hmem.1 (by tauto)
      exact ⟨⟨hqp, hq'.1⟩, hq'.2⟩
    · intro hq
      have hq' := hmem.2 ⟨hq.1.2, hq.2⟩
      tauto
  · exact Finset.mem_erase.2 ⟨hp.2.symm, h.idle.1⟩
  · have hcount := h.count
    simp only [List.length_append, List.length_cons] at hcount ⊢
    omega
  · obtain ⟨q, hq, rfl⟩ := List.mem_map.1 hpid
    exact h.gap.2 _ (List.mem_map_of_mem (hsub q hq))

/-- Every call but a `do_fork` that fails in `copy_files` keeps the list. -/
theorem PidList.step (h : PidList s xs) (hop : op.CopiesFiles) (hstep : PidStep s op t) :
    ∃ ys, PidList t ys := by
  obtain ⟨hallowed, hret⟩ := hstep
  cases op with
  | forkFail child =>
      cases hret.unique ⟨0, fun _ _ => rfl⟩
      exact ⟨xs, h.forkFail hallowed.1⟩
  | fork child filesOk =>
      cases hop
      obtain ⟨last, safe, hget, hrange, hnew, hgap⟩ := h.getPid hallowed.1 hallowed.2
      obtain ⟨bound, hbound⟩ := hget
      have hret' : Returns (fun bound => callPid bound s (PidOp.fork child true)) _ :=
        ⟨bound, fun k hk => by simp only [callPid, hbound k hk, bind_done]; rfl⟩
      cases hret.unique hret'
      exact ⟨child :: xs, h.fork hallowed.1 hrange hnew hgap⟩
  | remove p =>
      cases hret.unique ⟨0, fun _ _ => rfl⟩
      exact h.remove hallowed

/-- Before the first `do_fork`: the idle process is alone, and the list is empty. -/
structure PidStart (s : PidSys) : Prop where
  ring : Ring s.procList none []
  alive : s.alive = {s.idleproc}
  idle : s.pid s.idleproc = 0
  count : s.nrProcess = 1
  counters : s.lastPid = maxPid ∧ s.nextSafe = maxPid

theorem PidStart.pidList (h : PidStart s) : PidList s [] := by
  refine ⟨h.ring, fun p => ?_, ⟨?_, h.idle⟩, by simp [h.count], by simp, by simp, ?_, ?_⟩
  · simp [h.alive]
  · simp [h.alive]
  · rw [h.counters.1]
    decide
  · intro pid hpid
    cases hpid

/-- What `get_pid` has to do in a state: no process has a pid inside the gap, no two processes have
one pid, and with fewer than `MAX_PROCESS` processes the next call returns a pid that is free. -/
structure PidsRight (s : PidSys) : Prop where
  gap : ∀ p ∈ s.alive, ¬ (s.lastPid < s.pid p ∧ s.pid p < s.nextSafe)
  distinct : ∀ p ∈ s.alive, ∀ q ∈ s.alive, s.pid p = s.pid q → p = q
  count : s.nrProcess = s.alive.card
  returns : ∀ child, child ∉ s.alive → (s.alive.card : Int) < maxProcess →
    ∃ last safe, Returns (fun bound => getPidLinked bound s.procList (s.allocPid child) s.lastPid
      s.nextSafe) (last, safe) ∧ (1 ≤ last ∧ last < maxPid) ∧ ∀ p ∈ s.alive, s.pid p ≠ last

theorem PidList.pidsRight (h : PidList s xs) : PidsRight s := by
  refine ⟨fun p hp hin => ?_, fun p hp q hq heq => ?_, h.card, fun child hchild hroom => ?_⟩
  · by_cases hidle : p = s.idleproc
    · rw [hidle, h.idle.2] at hin
      have hpos := h.gap.1
      omega
    · rcases h.gap.2 _ (List.mem_map_of_mem ((h.mem p).2 ⟨hp, hidle⟩)) with hle | hle
      · omega
      · omega
  · have hzero : ∀ r ∈ s.alive, s.pid r = 0 → r = s.idleproc := by
      intro r hr hr0
      by_contra hne
      have := (h.range r ((h.mem r).2 ⟨hr, hne⟩)).1
      omega
    by_cases hp0 : p = s.idleproc
    · exact hp0.trans (hzero q hq (by rw [← heq, hp0, h.idle.2])).symm
    · by_cases hq0 : q = s.idleproc
      · exact (hzero p hp (by rw [heq, hq0, h.idle.2])).trans hq0.symm
      · exact h.distinct p ((h.mem p).2 ⟨hp, hp0⟩) q ((h.mem q).2 ⟨hq, hq0⟩) heq
  · rw [← h.card] at hroom
    obtain ⟨last, safe, hret, hrange, hnew, _⟩ := h.getPid hchild hroom
    exact ⟨last, safe, hret, hrange, hnew⟩

/-- In every state that a run reaches in which no `do_fork` fails in `copy_files`, `get_pid` does
what it has to. -/
theorem pid_allocation {s0 : PidSys} {ops : List PidOp} (h0 : PidStart s0)
    (hrun : Run (Guarded (fun _ op => op.CopiesFiles) PidStep) s0 ops s) : PidsRight s := by
  have hinv : ∃ xs, PidList s xs := by
    refine hrun.invariant (fun s => ∃ xs, PidList s xs) ?_ ⟨[], h0.pidList⟩
    intro t op u h hs
    obtain ⟨xs, h⟩ := h
    exact h.step hs.1 hs.2
  obtain ⟨xs, h⟩ := hinv
  exact h.pidsRight
/-! ## A fork that fails in copy_files -/

/-- The machine before the first `do_fork`. -/
def bootPids : PidSys where
  procList := { next := id, prev := id }
  pid := fun _ => 0
  alive := {0}
  idleproc := 0
  nrProcess := 1
  lastPid := maxPid
  nextSafe := maxPid

theorem pidStart_bootPids : PidStart bootPids :=
  ⟨⟨by simp, rfl, rfl⟩, rfl, rfl, rfl, rfl, rfl⟩

/-- The state after a list of calls, the last one first. One step of the loop is enough for them. -/
def afterPids : List PidOp → PidSys
  | [] => bootPids
  | op :: ops =>
      match callPid 1 (afterPids ops) op with
      | done s => s
      | _ => afterPids ops

theorem returns_afterPids {ops : List PidOp}
    (h : ∀ k, callPid (k + 1) (afterPids ops) op = done (afterPids (op :: ops))) :
    Returns (fun bound => callPid bound (afterPids ops) op) (afterPids (op :: ops)) := by
  refine ⟨1, fun bound hbound => ?_⟩
  obtain ⟨k, rfl⟩ := Nat.exists_eq_add_of_le' hbound
  exact h k

/-- After one fork `get_pid` can be called again. -/
theorem pid_allocation_bootPids : PidsRight (afterPids [PidOp.fork 1 true]) := by
  have hstep : PidStep bootPids (PidOp.fork 1 true) (afterPids [PidOp.fork 1 true]) :=
    ⟨⟨by decide, by decide⟩, @returns_afterPids _ [] fun k => rfl⟩
  have hrun : Run (Guarded (fun _ op => op.CopiesFiles) PidStep) bootPids [PidOp.fork 1 true] _ :=
    Run.cons ⟨rfl, hstep⟩ Run.nil
  exact pid_allocation pidStart_bootPids hrun

/-- The descriptor 1 was freed while it was linked, and it has been linked again: `proc_list` leads
into a circle that its head is not on. -/
structure Circular (s : PidSys) (last : Int) : Prop where
  head : s.procList.next none = some 1
  circle : s.procList.next (some 1) = some 1
  pid : s.pid 1 = 2
  alive : s.alive = {0, 1}
  idle : s.idleproc = 0
  count : s.nrProcess = 3
  counters : s.lastPid = last ∧ s.nextSafe = maxPid

theorem circular_afterPids :
    Run PidStep bootPids [PidOp.fork 1 false, PidOp.fork 1 true]
        (afterPids [PidOp.fork 1 true, PidOp.fork 1 false]) ∧
      Circular (afterPids [PidOp.fork 1 true, PidOp.fork 1 false]) 2 := by
  refine ⟨?_, by decide, by decide, by decide, by decide, rfl, rfl, rfl, rfl⟩
  refine Run.cons (t := afterPids [PidOp.fork 1 false]) ⟨⟨by decide, by decide⟩, ?_⟩ ?_
  · exact @returns_afterPids _ [] fun k => rfl
  refine Run.cons ⟨⟨by decide, by decide⟩, ?_⟩ Run.nil
  exact returns_afterPids fun k => rfl

/-- A process that is forked and removed leaves the circle as it is, and takes a pid. -/
theorem Circular.cycle {last : Int} (h : Circular s last) (hlast : last + 1 < maxPid) :
    ∃ t, Run PidStep s [PidOp.fork 2 true, PidOp.remove 2] t ∧ Circular t (last + 1) := by
  have hget : ∀ bound, getPidLinked bound s.procList (s.allocPid 2) s.lastPid s.nextSafe =
      done (last + 1, maxPid) := by
    intro bound
    unfold getPidLinked
    rw [h.counters.1, h.counters.2, if_neg (by omega), if_neg (by omega)]
    rfl
  let t : PidSys :=
    { s with
      procList := listAdd s.procList none (some 2)
      pid := Function.update (s.allocPid 2) 2 (last + 1)
      alive := insert 2 s.alive
      nrProcess := s.nrProcess + 1
      lastPid := last + 1
      nextSafe := maxPid }
  let u : PidSys :=
    { t with
      procList := listDel t.procList (some 2)
      alive := t.alive.erase 2
      nrProcess := t.nrProcess - 1 }
  have hfork : PidStep s (PidOp.fork 2 true) t := by
    refine ⟨⟨?_, ?_⟩, 0, fun bound _ => ?_⟩
    · rw [h.alive]
      decide
    · rw [h.count]
      decide
    · simp only [callPid, hget, bind_done]
      rfl
  have hremove : PidStep t (PidOp.remove 2) u := by
    refine ⟨⟨Finset.mem_insert_self _ _, ?_⟩, 0, fun bound _ => rfl⟩
    change 2 ≠ s.idleproc
    rw [h.idle]
    decide
  -- `list_add` at the head and `list_del` again.
  have hprev2 : t.procList.prev (some 2) = none := by
    simp [t, listAdd, listAddAfter, listAddBetween, Links.setPrev_prev]
  have hnext2 : t.procList.next (some 2) = some 1 := by
    simp [t, listAdd, listAddAfter, listAddBetween, Links.setNext_next, h.head]
  have hnext1 : t.procList.next (some 1) = some 1 := by
    simp [t, listAdd, listAddAfter, listAddBetween, Links.setNext_next, h.circle]
  refine ⟨u, Run.cons hfork (Run.cons hremove Run.nil), ?_, ?_, ?_, ?_, h.idle, ?_, rfl, rfl⟩
  · simp [u, listDel, listDelBetween, Links.setNext_next, hprev2, hnext2]
  · simp [u, listDel, listDelBetween, Links.setNext_next, hprev2, hnext1]
  · change Function.update (s.allocPid 2) 2 (last + 1) 1 = 2
    simp [PidSys.allocPid, h.pid]
  · change (insert 2 s.alive).erase 2 = {0, 1}
    rw [h.alive]
    decide
  · change s.nrProcess + 1 - 1 = 3
    rw [h.count]
    rfl

/-- `n` processes, one after the other. -/
def pidCycles (n : Nat) : List PidOp :=
  (List.replicate n [PidOp.fork 2 true, PidOp.remove 2]).flatten

theorem Circular.cycles {last : Int} (h : Circular s last) (n : Nat) (hlast : last + n < maxPid) :
    ∃ t, Run PidStep s (pidCycles n) t ∧ Circular t (last + n) := by
  induction n generalizing s last with
  | zero => exact ⟨s, Run.nil, by simpa using h⟩
  | succ n ih =>
      push_cast at hlast
      obtain ⟨t, hrun, ht⟩ := h.cycle (by omega)
      obtain ⟨u, hrun', hu⟩ := ih ht (by omega)
      refine ⟨u, hrun.trans hrun', ?_⟩
      have hsum : last + 1 + n = last + ((n + 1 : Nat) : Int) := by
        push_cast
        ring
      rwa [hsum] at hu

/-- On the circle the walk does not come back to the head. -/
theorem Circular.getPidLoop {last : Int} (h : Circular s last) {pid : Nat → Int} (hpid : pid 1 = 2)
    (bound : Nat) : getPidLoop s.procList pid bound (some 1) 1 2 = Outcome.fuel := by
  induction bound with
  | zero => rfl
  | succ bound ih =>
      have hnext : listNext s.procList (some 1) = some 1 := h.circle
      simp [TriOS.getPidLoop, hnext, hpid, ih]

/-- When all pids have been given out once `get_pid` walks over the list, and does not return. -/
theorem Circular.not_returns {last : Int} (h : Circular s last) (hlast : last + 1 ≥ maxPid)
    (child : Nat) (hchild : child ∉ s.alive) (r : Int × Int) :
    ¬ Returns (fun bound => getPidLinked bound s.procList (s.allocPid child) s.lastPid s.nextSafe)
      r := by
  intro hret
  have hpid : s.allocPid child 1 = 2 := by
    have hne : 1 ≠ child := by
      rintro rfl
      rw [h.alive] at hchild
      exact hchild (by decide)
    rw [PidSys.allocPid, Function.update_of_ne hne, h.pid]
  obtain ⟨bound, hbound, hrun⟩ := hret.exists_eq 1
  obtain ⟨k, rfl⟩ := Nat.exists_eq_add_of_le' hbound
  have hnext : listNext s.procList none = some 1 := h.head
  have hmax : maxPid > 2 := by decide
  simp [getPidLinked, h.counters.1, hlast, TriOS.getPidLoop, hnext, hpid, hmax,
    h.getPidLoop hpid] at hrun

/-- Fork 1 fails in `copy_files`, and the next fork gets the same memory. After 8189 more processes,
one after the other, two processes are alive, and `get_pid` does not return. -/
theorem get_pid_loops :
    PidStart bootPids ∧
      ∃ s, Run PidStep bootPids
          ([PidOp.fork 1 false, PidOp.fork 1 true] ++ pidCycles 8189) s ∧
        (s.alive.card : Int) < maxProcess ∧ 2 ∉ s.alive ∧
        ∀ r, ¬ Returns (fun bound => getPidLinked bound s.procList (s.allocPid 2) s.lastPid
          s.nextSafe) r := by
  obtain ⟨hrun, hcirc⟩ := circular_afterPids
  obtain ⟨s, hrun', hs⟩ := hcirc.cycles 8189 (by decide)
  have hnot : 2 ∉ s.alive := by
    rw [hs.alive]
    decide
  refine ⟨pidStart_bootPids, s, hrun.trans hrun', ?_, hnot, hs.not_returns (by decide) 2 hnot⟩
  rw [hs.alive]
  decide

end TriOS
