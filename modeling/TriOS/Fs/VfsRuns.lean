import TriOS.Fs.VfsCalls

/-!
# VfsRuns — runs of system calls

Processes make system calls one after another, from the state after boot. As long as no call is `Unsupported`,
none selects a missing operation. The calls that do are the programs' to make: a program that opens `stdin:` and
asks for a sync stops the machine.
-/

namespace TriOS
namespace Vfs

open Hoare Transition

/-- The state after boot: the root is in memory and nothing is open. -/
structure Booted (env : Env) (N : Nat) (s : State) : Prop where
  boot : env.bootfs = some rootNode
  root : ∃ root : Sin, root.din.type = typeDir ∧ root.din.nlinks ≠ 0 ∧
    s.sfs.sin = Function.update (fun _ => none) sfsBlknRoot (some root)
  pwd : ∀ p n, (s.files p).pwd = some n → n = rootNode
  closed : ∀ p fd, ((s.files p).fdArray fd).status = FdStatus.none
  ref : ∀ n, s.ref n = env.base n + holders N s.files n
  opens : ∀ n, s.opens n = 0

/-- One of the first `N` processes makes a system call, and the call returns. -/
def Step (env : Env) (N : Nat) (s : State) (c : Nat × Call) (t : State) : Prop :=
  c.1 < N ∧ ∃ ret, c.2.exec env c.1 s = Except.ok (ret, t)

/-- The call is none of those that select a missing operation. -/
def Supported (env : Env) (s : State) (c : Nat × Call) : Prop := ¬ Unsupported env s c.1 c.2

variable {env : Env} {N p : Nat} {s t : State} {n : Node} {calls : List (Nat × Call)} {call : Call}

/-- After boot, only the root and devices are referred to. -/
theorem Booted.ref_pos (h : Booted env N s) (hn : 0 < s.ref n) : n = rootNode ∨ ∃ d, n = Node.dev d := by
  cases n with
  | dev d => exact Or.inr ⟨d, rfl⟩
  | sfs ino dir =>
      left
      by_contra hne
      have htable : ∀ p, (s.files p).holders (Node.sfs ino dir) = 0 := by
        intro p
        unfold FilesStruct.holders
        rw [if_neg fun hp => hne (h.pwd p _ hp), zero_add]
        apply Finset.sum_eq_zero
        intro fd _
        simp [File.Holds, h.closed p fd]
      have hbase : env.base (Node.sfs ino dir) = 0 := by
        unfold Env.base
        rw [h.boot, if_neg fun heq => hne (Option.some.inj heq).symm]
        rfl
      rw [h.ref, hbase, holders, Finset.sum_eq_zero fun p _ => htable p] at hn
      exact absurd hn (by decide)

theorem Booted.good (h : Booted env N s) : Good env N (fun _ => 0) s := by
  obtain ⟨root, htype, hlinks, hsin⟩ := h.root
  have hkinds : s.sfs.kinds =
      Function.update (fun _ => none) sfsBlknRoot (some (root.din.type, root.din.nlinks)) := by
    funext ino
    unfold Sfs.kinds
    rw [hsin]
    by_cases hino : ino = sfsBlknRoot
    · subst hino
      simp
    · simp [hino]
  refine ⟨s.files, ⟨fun p n hp => ?_, fun p fd => Or.inl (h.closed p fd)⟩,
    h.boot, rfl, fun n => ?_, fun _ => le_refl 0, fun n hn => ?_, fun ino k hk => ?_⟩
  · rw [h.pwd p n hp]
    rfl
  · rw [h.ref n]
    omega
  · rcases h.ref_pos hn with rfl | ⟨d, rfl⟩
    · refine ⟨(root.din.type, root.din.nlinks), ?_, ?_⟩
      · rw [hkinds, Function.update_self]
      · simp [htype]
    · exact trivial
  · rw [hkinds] at hk
    by_cases hino : ino = sfsBlknRoot
    · subst hino
      rw [Function.update_self] at hk
      cases hk
      exact hlinks
    · rw [Function.update_of_ne hino] at hk
      cases hk

/-- A supported call leaves the tables of open files in order. -/
theorem Good.step (h : Good env N (fun _ => 0) s) {c : Nat × Call}
    (hstep : Guarded (Supported env) (Step env N) s c t) : Good env N (fun _ => 0) t := by
  obtain ⟨hok, hp, ret, hexec⟩ := hstep
  exact (h.exec hp hok).of_ok hexec

/-- Along every run of supported calls from boot, no supported call selects a missing operation. -/
theorem no_missing_operation (hboot : Booted env N s) (hrun : Run (Guarded (Supported env) (Step env N)) s calls t)
    (hp : p < N) (hok : Supported env t (p, call)) (table : OpTable) (sym : Vop) :
    call.exec env p t ≠ Except.error (Stop.noOp table sym) := by
  intro hexec
  have hgood : Good env N (fun _ => 0) t :=
    hrun.invariant (Good env N fun _ => 0) (fun _ _ _ h hstep => h.step hstep) hboot.good
  exact (hgood.exec hp hok).of_error hexec

/-! ## Calls that are not supported -/

/-- A machine with the console, and a disk whose root is empty. -/
def consoleEnv : Env where
  vdevs :=
    [⟨[115, 116, 100, 105, 110], Device.stdin, false, false⟩,
      ⟨[100, 105, 115, 107, 48], Device.disk0, true, true⟩]
  bootfs := some rootNode
  diskBlocks := 0

/-- The root directory of the disk -/
def emptyRoot : Sin where
  din := { size := 0, type := typeDir, nlinks := 1, blocks := 0, direct := fun _ => 0, indirect := 0 }
  dirty := false
  reclaimCount := 1

/-- The machine after boot, with one process. -/
def consoleBoot : State where
  sfs := { blocks := 0, unusedBlocks := 0, superDirty := false, freemap := ⟨0, [], by decide⟩, disk := fun _ _ => 0,
           sin := Function.update (fun _ => none) sfsBlknRoot (some emptyRoot), requests := [] }
  ref := fun n => match n with
    | Node.dev _ => 1
    | Node.sfs ino dir => if ino = sfsBlknRoot ∧ dir = true then 1 else 0
  opens := fun _ => 0
  files := fun _ => ⟨none, fun _ => ⟨FdStatus.none, false, false, 0, none, 0⟩⟩

theorem consoleBoot_booted : Booted consoleEnv 1 consoleBoot := by
  have hnone : ∀ n, holders 1 consoleBoot.files n = 0 := by
    intro n
    unfold holders FilesStruct.holders
    simp [consoleBoot, File.Holds]
  refine ⟨rfl, ⟨emptyRoot, rfl, by decide, rfl⟩, fun p n hp => ?_, fun _ _ => rfl, fun n => ?_, fun _ => rfl⟩
  · cases hp
  · rw [hnone, add_zero]
    unfold Env.base
    cases n with
    | dev d => rfl
    | sfs ino dir =>
        by_cases hroot : ino = sfsBlknRoot ∧ dir = true
        · obtain ⟨rfl, rfl⟩ := hroot
          rfl
        · have hne : consoleEnv.bootfs ≠ some (Node.sfs ino dir) := by
            intro heq
            cases heq
            exact hroot ⟨rfl, rfl⟩
          simp [consoleBoot, hroot, hne]

/-- A program that opens the console can ask for its status. -/
theorem no_missing_operation_console :
    ∃ t, Run (Guarded (Supported consoleEnv) (Step consoleEnv 1)) consoleBoot
        ([] ++ [(0, Call.sysOpen [115, 116, 100, 105, 110, 58] 0)]) t ∧
      ∀ table sym, (Call.fstat 0).exec consoleEnv 0 t ≠ Except.error (Stop.noOp table sym) := by
  have hopen : ∃ t, (Call.sysOpen [115, 116, 100, 105, 110, 58] 0).exec consoleEnv 0 consoleBoot =
      Except.ok (0, t) := ⟨_, rfl⟩
  obtain ⟨t, ht⟩ := hopen
  have hok : Supported consoleEnv consoleBoot (0, Call.sysOpen [115, 116, 100, 105, 110, 58] 0) := by
    rintro ⟨-, hcreat, -⟩
    exact absurd hcreat (by decide)
  have hrun : Run (Guarded (Supported consoleEnv) (Step consoleEnv 1)) consoleBoot
      ([] ++ [(0, Call.sysOpen [115, 116, 100, 105, 110, 58] 0)]) t :=
    Run.snoc Run.nil ⟨hok, by decide, 0, ht⟩
  have hfstat : Supported consoleEnv t (0, Call.fstat 0) := fun h => h
  exact ⟨t, hrun, no_missing_operation consoleBoot_booted hrun (by decide) hfstat⟩

/-- A program opens the console for reading and asks for a sync: the table of devices has no `vop_fsync`. -/
theorem missing_operation :
    ¬ ∀ (env : Env) (N p : Nat) (s t : State) (calls : List (Nat × Call)) (call : Call) (table : OpTable) (sym : Vop),
      Booted env N s → Run (Step env N) s calls t → p < N →
        call.exec env p t ≠ Except.error (Stop.noOp table sym) := by
  intro hclaim
  have hopen : ∃ t, (Call.sysOpen [115, 116, 100, 105, 110, 58] 0).exec consoleEnv 0 consoleBoot =
      Except.ok (0, t) ∧
      (Call.fsync 0).exec consoleEnv 0 t = Except.error (Stop.noOp OpTable.devNodeOps Vop.vopFsync) :=
    ⟨_, rfl, rfl⟩
  obtain ⟨t, ht, hstop⟩ := hopen
  have hstep : Step consoleEnv 1 consoleBoot (0, Call.sysOpen [115, 116, 100, 105, 110, 58] 0) t :=
    ⟨by decide, 0, ht⟩
  exact hclaim consoleEnv 1 0 consoleBoot t _ (Call.fsync 0) _ _ consoleBoot_booted
    (Run.snoc Run.nil hstep) (by decide) hstop

end Vfs
end TriOS
