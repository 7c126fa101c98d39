import TriOS.Library.Outcome

/-!
# proc.c — get_pid

`get_pid` keeps two static variables: the pid that it gave out last, and a bound such that no process
has a pid between the two. The argument `pids` are the pids of `proc_list`, in the order of the list.
-/

namespace TriOS

open Outcome

/-- `MAX_PROCESS` -/
def maxProcess : Int := 4096

/-- `MAX_PID` -/
def maxPid : Int := maxProcess * 2

/-- The inner loop of `get_pid`. The last component says that the search starts again. -/
def pidScan : List Int → Int → Int → Int × Int × Bool
  | [], lastPid, nextSafe => (lastPid, nextSafe, false)
  | pid :: pids, lastPid, nextSafe =>
      if pid = lastPid then
        if lastPid + 1 ≥ nextSafe then
          (if lastPid + 1 ≥ maxPid then 1 else lastPid + 1, maxPid, true)
        else pidScan pids (lastPid + 1) nextSafe
      else if pid > lastPid ∧ nextSafe > pid then pidScan pids lastPid pid
      else pidScan pids lastPid nextSafe

/-- The search from `repeat` on. -/
def pidRepeat : Nat → List Int → Int → Int → Outcome (Int × Int)
  | 0, _, _, _ => fuel
  | bound + 1, pids, lastPid, nextSafe =>
      match pidScan pids lastPid nextSafe with
      | (lastPid, nextSafe, true) => pidRepeat bound pids lastPid nextSafe
      | (lastPid, nextSafe, false) => pure (lastPid, nextSafe)

/-- `get_pid`: the new values of `last_pid`, which is returned, and of `next_safe`. -/
def getPid (bound : Nat) (pids : List Int) (lastPid nextSafe : Int) : Outcome (Int × Int) :=
  if lastPid + 1 ≥ maxPid then pidRepeat bound pids 1 maxPid
  else if lastPid + 1 ≥ nextSafe then pidRepeat bound pids (lastPid + 1) maxPid
  else pure (lastPid + 1, nextSafe)

/-- No process has a pid between `last_pid` and `next_safe`. -/
def PidGap (pids : List Int) (lastPid nextSafe : Int) : Prop :=
  ∀ pid ∈ pids, pid ≤ lastPid ∨ nextSafe ≤ pid

variable {pids : List Int} {lastPid nextSafe last safe : Int} {bound : Nat}

/-- A scan to the end of the list leaves a pid that is free, and a gap behind it. -/
theorem pidScan_spec (seen : List Int) (hlt : lastPid < nextSafe)
    (hseen : ∀ pid ∈ seen, pid < lastPid ∨ nextSafe ≤ pid)
    (h : pidScan pids lastPid nextSafe = (last, safe, false)) :
    lastPid ≤ last ∧ ∀ pid ∈ seen ++ pids, pid < last ∨ (safe ≤ pid ∧ last < safe) := by
  induction pids generalizing seen lastPid nextSafe with
  | nil =>
      rcases Prod.mk.inj h with ⟨rfl, h2⟩
      rcases Prod.mk.inj h2 with ⟨rfl, _⟩
      refine ⟨le_rfl, fun pid hpid => ?_⟩
      rcases hseen pid (by simpa using hpid) with hp | hp
      · exact Or.inl hp
      · exact Or.inr ⟨hp, hlt⟩
  | cons pid pids ih =>
      have hsplit : seen ++ pid :: pids = (seen ++ [pid]) ++ pids := by simp
      rw [hsplit]
      unfold pidScan at h
      by_cases heq : pid = lastPid
      · rw [if_pos heq] at h
        by_cases hge : lastPid + 1 ≥ nextSafe
        · rw [if_pos hge] at h
          simp at h
        · rw [if_neg hge] at h
          have hih := ih (seen ++ [pid]) (by omega) ?_ h
          · exact ⟨by omega, hih.2⟩
          · intro x hx
            rcases List.mem_append.1 hx with hx | hx
            · rcases hseen x hx with h1 | h1 <;> omega
            · have hxp : x = pid := by simpa using hx
              omega
      · rw [if_neg heq] at h
        by_cases hin : pid > lastPid ∧ nextSafe > pid
        · rw [if_pos hin] at h
          refine ih (seen ++ [pid]) hin.1 ?_ h
          intro x hx
          rcases List.mem_append.1 hx with hx | hx
          · rcases hseen x hx with h1 | h1 <;> omega
          · have hxp : x = pid := by simpa using hx
            omega
        · rw [if_neg hin] at h
          refine ih (seen ++ [pid]) hlt ?_ h
          intro x hx
          rcases List.mem_append.1 hx with hx | hx
          · exact hseen x hx
          · have hxp : x = pid := by simpa using hx
            omega

/-- A scan that starts again starts with a positive pid below `MAX_PID`. -/
theorem pidScan_again (hpos : 1 ≤ lastPid) (h : pidScan pids lastPid nextSafe = (last, safe, true)) :
    1 ≤ last ∧ last < maxPid ∧ safe = maxPid := by
  induction pids generalizing lastPid nextSafe with
  | nil => simp [pidScan] at h
  | cons pid pids ih =>
      unfold pidScan at h
      by_cases heq : pid = lastPid
      · rw [if_pos heq] at h
        by_cases hge : lastPid + 1 ≥ nextSafe
        · rw [if_pos hge] at h
          rcases Prod.mk.inj h with ⟨rfl, h2⟩
          rcases Prod.mk.inj h2 with ⟨rfl, _⟩
          by_cases hmax : lastPid + 1 ≥ maxPid
          · rw [if_pos hmax]
            exact ⟨le_rfl, by decide, rfl⟩
          · rw [if_neg hmax]
            exact ⟨by omega, by omega, rfl⟩
        · rw [if_neg hge] at h
          exact ih (by omega) h
      · rw [if_neg heq] at h
        by_cases hin : pid > lastPid ∧ nextSafe > pid
        · rw [if_pos hin] at h
          exact ih hpos h
        · rw [if_neg hin] at h
          exact ih hpos h

theorem pidRepeat_spec (hpos : 1 ≤ lastPid) (hlt : lastPid < maxPid)
    (h : pidRepeat bound pids lastPid maxPid = done (last, safe)) :
    1 ≤ last ∧ last ∉ pids ∧ PidGap pids last safe := by
  induction bound generalizing lastPid with
  | zero => cases h
  | succ bound ih =>
      unfold pidRepeat at h
      rcases hscan : pidScan pids lastPid maxPid with ⟨l, s, again⟩
      rw [hscan] at h
      cases again with
      | true =>
          rcases pidScan_again hpos hscan with ⟨h1, h2, rfl⟩
          exact ih h1 h2 h
      | false =>
          rcases Prod.mk.inj (done.inj h) with ⟨rfl, rfl⟩
          rcases pidScan_spec [] hlt (by simp) hscan with ⟨hle, hall⟩
          refine ⟨by omega, fun hc => ?_, fun pid hpid => ?_⟩
          · rcases hall _ (by simpa using hc) with h1 | h1 <;> omega
          · rcases hall pid (by simpa using hpid) with h1 | h1 <;> omega

/-- `get_pid` returns a pid that no process has, and keeps the gap behind it. -/
theorem getPid_spec (hpos : 1 ≤ lastPid) (hgap : PidGap pids lastPid nextSafe)
    (h : getPid bound pids lastPid nextSafe = done (last, safe)) :
    1 ≤ last ∧ last ∉ pids ∧ PidGap pids last safe := by
  unfold getPid at h
  by_cases hmax : lastPid + 1 ≥ maxPid
  · rw [if_pos hmax] at h
    exact pidRepeat_spec le_rfl (by decide) h
  · rw [if_neg hmax] at h
    by_cases hsafe : lastPid + 1 ≥ nextSafe
    · rw [if_pos hsafe] at h
      exact pidRepeat_spec (by omega) (by omega) h
    · rw [if_neg hsafe] at h
      rcases Prod.mk.inj (done.inj h) with ⟨rfl, rfl⟩
      refine ⟨by omega, fun hc => ?_, fun pid hpid => ?_⟩
      · rcases hgap _ hc with h1 | h1 <;> omega
      · rcases hgap pid hpid with h1 | h1 <;> omega

end TriOS
