import TriOS.Fs.VfsPath

/-!
# VfsTabs — the tables of open files

What a store into a table does to the references, and what the functions on one entry do.
-/

namespace TriOS
namespace Vfs

open Hoare

/-- The tables with another entry. -/
def setTab (tabs : Nat → FilesStruct) (p fd : Nat) (file : File) : Nat → FilesStruct :=
  Function.update tabs p { tabs p with fdArray := Function.update (tabs p).fdArray fd file }

/-- The tables with another current directory. -/
def setPwd (tabs : Nat → FilesStruct) (p : Nat) (dir : Node) : Nat → FilesStruct :=
  Function.update tabs p { tabs p with pwd := some dir }

/-- Tables that are in order, and the references to them. -/
def Good (env : Env) (N : Nat) (K : Node → Int) (s : State) : Prop :=
  ∃ tabs, TabsOk tabs ∧ Acc env N tabs K s

variable {env : Env} {N p q fd : Nat} {tabs : Nat → FilesStruct} {K K' : Node → Int} {s t : State} {n : Node}
  {file file' : File}

@[simp] theorem setTab_self : (setTab tabs p fd file p).fdArray fd = file := by simp [setTab]

theorem setTab_setTab : setTab (setTab tabs p fd file) p fd file' = setTab tabs p fd file' := by
  funext q
  by_cases hq : q = p
  · subst hq
    simp [setTab]
  · simp [setTab, hq]

@[simp] theorem setTab_pwd : (setTab tabs p fd file q).pwd = (tabs q).pwd := by
  by_cases hq : q = p
  · subst hq
    simp [setTab]
  · simp [setTab, hq]

theorem PwdOk.setTab (h : PwdOk tabs) : PwdOk (setTab tabs p fd file) :=
  fun q n hq => h q n (by simpa using hq)

theorem TabsOk.setTab (h : TabsOk tabs) (hfile : FileOk file) : TabsOk (setTab tabs p fd file) := by
  refine ⟨h.pwd.setTab, fun q fd' => ?_⟩
  by_cases hq : q = p
  · subst hq
    by_cases hfd : fd' = fd
    · subst hfd
      simpa using hfile
    · simpa [Vfs.setTab, hfd] using h.file q fd'
  · simpa [Vfs.setTab, hq] using h.file q fd'

theorem TabsOk.setPwd (h : TabsOk tabs) (hn : n.inOps = OpTable.sfsNodeDirops) : TabsOk (setPwd tabs p n) := by
  refine ⟨fun q m hq => ?_, fun q fd => ?_⟩
  · by_cases hqp : q = p
    · subst hqp
      simp only [Vfs.setPwd, Function.update_self, Option.some.injEq] at hq
      exact hq ▸ hn
    · exact h.pwd q m (by simpa [Vfs.setPwd, hqp] using hq)
  · by_cases hqp : q = p
    · subst hqp
      simpa [Vfs.setPwd] using h.file q fd
    · simpa [Vfs.setPwd, hqp] using h.file q fd

/-! ## References -/

theorem holders_update {table : FilesStruct} (hp : p < N) :
    holders N (Function.update tabs p table) n = holders N tabs n - (tabs p).holders n + table.holders n := by
  unfold holders
  rw [← Finset.add_sum_erase _ _ (Finset.mem_range.2 hp),
    ← Finset.add_sum_erase (Finset.range N) (fun q => (tabs q).holders n) (Finset.mem_range.2 hp)]
  have hrest : ∑ q ∈ (Finset.range N).erase p, (Function.update tabs p table q).holders n =
      ∑ q ∈ (Finset.range N).erase p, (tabs q).holders n := by
    apply Finset.sum_congr rfl
    intro q hq
    rw [Function.update_of_ne (Finset.ne_of_mem_erase hq)]
  rw [hrest]
  simp only [Function.update_self]
  ring

theorem FilesStruct.holders_setFd {table : FilesStruct} (hfd : fd < filesStructNentry) :
    ({ table with fdArray := Function.update table.fdArray fd file } : FilesStruct).holders n =
      table.holders n - (if (table.fdArray fd).Holds n then 1 else 0) + (if file.Holds n then 1 else 0) := by
  unfold FilesStruct.holders
  dsimp only
  rw [← Finset.add_sum_erase _ _ (Finset.mem_range.2 hfd),
    ← Finset.add_sum_erase (Finset.range filesStructNentry)
      (fun fd => if (table.fdArray fd).Holds n then (1 : Int) else 0) (Finset.mem_range.2 hfd)]
  have hrest : (∑ fd' ∈ (Finset.range filesStructNentry).erase fd,
      if (Function.update table.fdArray fd file fd').Holds n then (1 : Int) else 0) =
      ∑ fd' ∈ (Finset.range filesStructNentry).erase fd, if (table.fdArray fd').Holds n then (1 : Int) else 0 := by
    apply Finset.sum_congr rfl
    intro fd' hfd'
    rw [Function.update_of_ne (Finset.ne_of_mem_erase hfd')]
  rw [hrest]
  simp only [Function.update_self]
  ring

/-- A store into a table: what the entry refers to more, the running code refers to less. -/
theorem Acc.setFile (file : File) (h : Acc env N tabs K s) (hp : p < N) (hfd : fd < filesStructNentry) (hK : ∀ m, 0 ≤ K' m)
    (heq : ∀ m, (if file.Holds m then 1 else 0) + K' m =
      (if ((tabs p).fdArray fd).Holds m then 1 else 0) + K m) :
    Triple IsHalt (setFile p fd file) s fun _ t => Acc env N (setTab tabs p fd file) K' t := by
  refine ⟨h.boot, ?_, fun m => ?_, hK, h.live, h.links⟩
  · change setTab s.files p fd file = setTab tabs p fd file
    rw [h.files]
  · have hm := heq m
    rw [Vfs.setTab, holders_update hp, FilesStruct.holders_setFd hfd]
    change _ ≤ s.ref m
    have href := h.ref m
    omega

/-- A store that keeps what the entry refers to. -/
theorem Acc.setFile_same (file : File) (h : Acc env N tabs K s) (hp : p < N) (hfd : fd < filesStructNentry)
    (heq : ∀ m, file.Holds m ↔ ((tabs p).fdArray fd).Holds m) :
    Triple IsHalt (Vfs.setFile p fd file) s fun _ t => Acc env N (setTab tabs p fd file) K t :=
  h.setFile file hp hfd h.nonneg fun m => by simp only [heq m]

theorem triple_getFile {E : Stop → Prop} {Q : File → State → Prop} :
    Triple E (getFile p fd) s Q ↔ Q ((s.files p).fdArray fd) s := Iff.rfl

theorem triple_fileNode {Q : Node → State → Prop} :
    Triple IsHalt (fileNode file) s Q ↔ ∀ n, file.node = some n → Q n s := by
  unfold fileNode
  cases file.node with
  | none => simp [IsHalt]
  | some n => simp

theorem triple_fd2file {fd : Int} :
    Triple IsHalt (fd2file p fd) s fun r t => t = s ∧ ∀ i, r = some i →
      0 ≤ fd ∧ fd < filesStructNentry ∧ i = fd.toNat ∧ i < filesStructNentry ∧
      ((s.files p).fdArray i).status = FdStatus.opened := by
  unfold fd2file
  refine triple_ite (fun hfd => ?_) fun _ => ⟨rfl, fun i hi => by cases hi⟩
  rw [triple_bind, triple_getFile]
  refine triple_ite (fun hopened => ⟨rfl, fun i hi => ?_⟩) fun _ => ⟨rfl, fun i hi => by cases hi⟩
  cases hi
  exact ⟨hfd.1, hfd.2, rfl, by omega, hopened⟩

/-! ## One entry -/

/-- `fd_array_acquire` -/
theorem Acc.fdArrayAcquire (h : Acc env N tabs K s) (hp : p < N) (hfd : fd < filesStructNentry) :
    Triple IsHalt (fdArrayAcquire p fd) s fun _ t => ((tabs p).fdArray fd).status = FdStatus.opened ∧
      Acc env N (setTab tabs p fd
        { (tabs p).fdArray fd with openCount := ((tabs p).fdArray fd).openCount + 1 }) K t := by
  unfold Vfs.fdArrayAcquire
  rw [triple_bind, triple_getFile, triple_bind, triple_codeAssert, h.files]
  intro hopened
  have hstore := h.setFile_same { (tabs p).fdArray fd with openCount := ((tabs p).fdArray fd).openCount + 1 } hp hfd
    fun m => Iff.rfl
  exact hstore.mono fun _ t ht => ⟨hopened, ht⟩

/-- `fd_array_release` of an open file: when no user is left, an assertion fails. -/
theorem Acc.fdArrayRelease (h : Acc env N tabs K s) (hp : p < N) (hfd : fd < filesStructNentry)
    (hopened : ((tabs p).fdArray fd).status = FdStatus.opened) :
    Triple IsHalt (fdArrayRelease p fd) s fun _ t => Acc env N (setTab tabs p fd
      { (tabs p).fdArray fd with openCount := ((tabs p).fdArray fd).openCount - 1 }) K t := by
  unfold Vfs.fdArrayRelease
  rw [triple_bind, triple_getFile, triple_bind, triple_codeAssert, h.files]
  intro _
  rw [triple_bind, triple_codeAssert]
  intro _
  have hstore := h.setFile_same { (tabs p).fdArray fd with openCount := ((tabs p).fdArray fd).openCount - 1 } hp hfd
    fun m => Iff.rfl
  apply hstore.bind
  intro _ t ht
  refine triple_ite (fun _ => ?_) fun _ => ht
  unfold fdArrayFree
  rw [triple_bind, triple_getFile, triple_bind, triple_codeAssert, ht.files, setTab_self]
  intro hstatus
  rw [hopened] at hstatus
  rcases hstatus with hstatus | hstatus <;> cases hstatus

/-- `vfs_close` -/
theorem Acc.vfsClose (h : Acc env N tabs (give K n) s) (hK : ∀ m, 0 ≤ K m) :
    Triple IsHalt (vfsClose n) s fun _ t => Acc env N tabs K t := by
  unfold Vfs.vfsClose
  apply h.openDec.bind
  intro _ t ht
  exact ht.refDec hK

/-- `fd_array_free` of an entry that was not opened. -/
theorem Acc.fdArrayFree (h : Acc env N tabs K s) (hp : p < N) (hfd : fd < filesStructNentry)
    (hinit : ((tabs p).fdArray fd).status = FdStatus.init) :
    Triple IsHalt (fdArrayFree p fd) s fun _ t =>
      Acc env N (setTab tabs p fd { (tabs p).fdArray fd with status := FdStatus.none }) K t := by
  unfold Vfs.fdArrayFree
  rw [triple_bind, triple_getFile, triple_bind, triple_codeAssert, h.files]
  intro _
  rw [triple_bind, triple_codeAssert]
  intro _
  rw [if_neg (by simp [hinit]), triple_bind, triple_pure, triple_bind, triple_getFile, h.files]
  apply h.setFile_same _ hp hfd
  intro m
  simp [File.Holds, hinit]

/-- `fd_array_close`: the last user gives the reference of the entry back. -/
theorem Acc.fdArrayClose (h : Acc env N tabs K s) (htabs : TabsOk tabs) (hp : p < N)
    (hfd : fd < filesStructNentry) :
    Triple IsHalt (fdArrayClose p fd) s fun _ t => Good env N K t := by
  unfold Vfs.fdArrayClose
  rw [triple_bind, triple_getFile, triple_bind, triple_codeAssert, h.files]
  intro hopened
  rw [triple_bind, triple_codeAssert]
  intro _
  rcases htabs.file p fd with hnone | ⟨-, hcount, n, hnode, -⟩
  · rw [hopened] at hnone
    cases hnone
  · have hholds : ((tabs p).fdArray fd).Holds n := ⟨hopened, hnode⟩
    have hstore : ∀ m, (if File.Holds { (tabs p).fdArray fd with
          status := FdStatus.closed, openCount := ((tabs p).fdArray fd).openCount - 1 } m then 1 else 0) +
        give K n m = (if ((tabs p).fdArray fd).Holds m then 1 else 0) + K m := by
      intro m
      have hclosed : ¬ File.Holds { (tabs p).fdArray fd with
          status := FdStatus.closed, openCount := ((tabs p).fdArray fd).openCount - 1 } m := fun hm => by cases hm.1
      rw [if_neg hclosed]
      by_cases hm : m = n
      · subst hm
        rw [if_pos hholds, give_self]
        ring
      · have hother : ¬ ((tabs p).fdArray fd).Holds m := fun hm' => hm (Option.some.inj (hm'.2.symm.trans hnode))
        rw [if_neg hother]
        simp [give, hm]
    apply Triple.bind (h.setFile _ hp hfd (give_nonneg h.nonneg) hstore)
    intro _ t ht
    rw [hcount, if_pos (by norm_num)]
    unfold Vfs.fdArrayFree
    rw [triple_bind, triple_getFile, triple_bind, triple_codeAssert, ht.files, setTab_self]
    intro _
    rw [triple_bind, triple_codeAssert]
    intro _
    rw [if_pos rfl, triple_bind, triple_bind, triple_fileNode]
    intro m hm
    cases hm.symm.trans hnode
    apply (ht.vfsClose h.nonneg).mono
    intro _ u hu
    rw [triple_bind, triple_getFile, hu.files, setTab_self]
    apply Triple.mono (hu.setFile_same _ hp hfd fun m => ?_)
    · intro _ v hv
      rw [setTab_setTab] at hv
      exact ⟨_, htabs.setTab (Or.inl rfl), hv⟩
    · rw [setTab_self]
      simp [File.Holds]

end Vfs
end TriOS
