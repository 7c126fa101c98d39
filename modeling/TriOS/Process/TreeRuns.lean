import TriOS.Process.KernelRuns

/-!
# The process tree in all runs

The lists of children, `proc_list` and the pid hash table agree about which processes there are, in
every run in which no `do_fork` fails in `copy_files`. One that does frees a child that is linked.
-/

namespace TriOS

open Chain Outcome Transition

variable {k t : Kern} {p q : Nat}

/-- The descriptor belongs to a process, other than idle, that `do_fork` has made. -/
def Kern.Process (k : Kern) (p : Nat) : Prop :=
  p ∈ k.alive ∧ (k.machine.proc p).state ≠ ProcState.uninit ∧ p ≠ k.machine.idleproc

/-- The process tree: the pointers link, for each process, exactly its children, and the lists hold
every process once. -/
structure ProcessTree (k : Kern) : Prop where
  children : ∃ kids : Nat → List Nat, ∀ q, (k.Process q ∨ q = k.machine.idleproc) →
    Chain.Linked (fun x => (k.machine.proc x).optr) (fun x => (k.machine.proc x).yptr) none
      (k.machine.proc q).cptr (kids q) ∧ (kids q).Nodup ∧
    ∀ p, p ∈ kids q ↔ k.Process p ∧ (k.machine.proc p).parent = some q
  parent : ∀ p, k.Process p → ∃ q, (k.machine.proc p).parent = some q ∧
    (k.Process q ∨ q = k.machine.idleproc)
  listed : k.procList.Nodup ∧ ∀ p, p ∈ k.procList ↔ k.Process p
  hashed : ∀ i, (k.hashList i).Nodup ∧
    ∀ p, p ∈ k.hashList i ↔ k.Process p ∧ i = pidHashfn (k.machine.proc p).pid
  count : k.nrProcess = k.procList.length + 1

theorem Table.process_iff (h : Table k) : k.Process p ↔ p ∈ k.procList := by
  constructor
  · rintro ⟨halive, hstate, hidle⟩
    by_contra hlist
    exact hstate (h.rest p halive fun hm => hm.elim hlist hidle).1
  · intro hlist
    exact ⟨(h.listed p hlist).1, h.not_uninit (Or.inl hlist), (h.listed p hlist).2.2⟩

theorem KernInv.processTree (h : KernInv none k) : ProcessTree k := by
  rcases h.family with ⟨before, kids, hfamily⟩
  have hmember : ∀ q, k.Member q ↔ k.Process q ∨ q = k.machine.idleproc := fun q =>
    or_congr_left h.table.process_iff.symm
  refine ⟨⟨kids, fun q hq => ⟨?_, hfamily.tree.nodup q, fun p => ⟨fun hp => ?_, fun hp => ?_⟩⟩⟩,
    fun p hp => ?_, ⟨h.table.nodup, fun p => h.table.process_iff.symm⟩,
    fun i => ⟨?_, fun p => ?_⟩, h.table.count⟩
  · have hlinked := hfamily.tree.linked q (h.table.member_alive h.sched ((hmember q).2 hq))
    rwa [hfamily.before q (by simp)] at hlinked
  · exact ⟨h.table.process_iff.2 ((hfamily.child p).2 ⟨q, hp⟩), hfamily.tree.parent q p hp⟩
  · exact hfamily.mem_kids (h.table.process_iff.1 hp.1) hp.2
  · rcases hfamily.parent (h.table.process_iff.1 hp) with ⟨q, _, hparent, hq⟩
    exact ⟨q, hparent, (hmember q).1 hq⟩
  · rw [h.table.hash]
    exact h.table.nodup.filter _
  · rw [h.table.hash, List.mem_filter, h.table.process_iff]
    simp [eq_comm]

/-- In every state that a run reaches in which no `do_fork` fails in `copy_files`, the process tree
and the lists of the processes are intact. -/
theorem process_tree_kept {k0 : Kern} {ops : List KernOp} (h0 : KernStart k0)
    (hrun : Run (Guarded (fun _ op => op.CopiesFiles) KernStep) k0 ops k) : ProcessTree k :=
  (KernInv.run h0 hrun).processTree

theorem process_tree_kept_initKern : ProcessTree initKern := by
  have hrun : Run (Guarded (fun _ op => op.CopiesFiles) KernStep) bootKern
      [KernOp.procInit 1 0 1] initKern :=
    Run.cons ⟨by simp [KernOp.CopiesFiles], kernStep_procInit⟩ Run.nil
  exact process_tree_kept kernStart_bootKern hrun

/-! ## A fork that fails in copy_files -/

/-- `init` runs. -/
def runningKern : Kern :=
  match schedule defaultSchedClass initKern.machine with
  | done m => initKern.switched.setMachine m
  | _ => initKern

/-- It has begun to fork the child 2. -/
def forkingKern : Kern :=
  match forkStart runningKern 2 0 1 with
  | done k => k
  | _ => runningKern

/-- Its `copy_files` has failed. -/
def failedKern : Kern :=
  match forkFinish 3 forkingKern 2 false with
  | done k => k
  | _ => forkingKern

/-- The memory of the child is free, but it is still on `proc_list`. -/
theorem process_tree_broken :
    KernStart bootKern ∧
      Run KernStep bootKern [KernOp.procInit 1 0 1, KernOp.schedule, KernOp.forkStart 2 0 1,
        KernOp.forkFinish false] failedKern ∧
      ¬ ProcessTree failedKern := by
  have hschedule : KernStep initKern KernOp.schedule runningKern := ⟨Or.inl rfl, _, rfl, rfl⟩
  have hstart : KernStep runningKern (KernOp.forkStart 2 0 1) forkingKern :=
    ⟨⟨⟨rfl, rfl⟩, by decide, by decide⟩, rfl⟩
  have hfail : KernStep forkingKern (KernOp.forkFinish false) failedKern := by
    refine ⟨2, ⟨rfl, rfl⟩, 3, fun bound hbound => ?_⟩
    rcases Nat.exists_eq_add_of_le' hbound with ⟨n, rfl⟩
    rfl
  refine ⟨kernStart_bootKern, Run.cons kernStep_procInit
    (Run.cons hschedule (Run.cons hstart (Run.cons hfail Run.nil))), fun htree => ?_⟩
  have hlist : 2 ∈ failedKern.procList := by decide
  have hprocess := (htree.listed.2 2).1 hlist
  exact absurd hprocess.1 (by decide)

end TriOS
