import TriOS.Fs.VfsOpen
import TriOS.Library.Transition

/-!
# VfsCalls — no system call selects a missing operation

The calls on open files and on the current directory. `Unsupported` lists the calls that do select one: each asks
for something that the kind of the file does not have, and no check of the layers above refuses it.
-/

namespace TriOS
namespace Vfs

open Hoare Transition

/-- The descriptor is open, for a node with the property `P`. -/
def OpenAs (s : State) (p : Nat) (fd : Int) (P : Node → Prop) : Prop :=
  0 ≤ fd ∧ fd < filesStructNentry ∧ ∃ n, ((s.files p).fdArray fd.toNat).Holds n ∧ P n

/-- The calls that select a missing operation: an open that has to create a file or that truncates a directory,
a read or a seek of a directory, a sync of a device, and reading the entries of what is not a directory. -/
def Unsupported (env : Env) (s : State) (p : Nat) : Call → Prop
  | Call.sysOpen path flags => OpenUnsupported env (s.files p).pwd s.sfs path flags
  | Call.read fd len => 0 < len ∧ OpenAs s p fd fun n => n.inOps = OpTable.sfsNodeDirops
  | Call.seek fd _ whence => whence ≤ 2 ∧ OpenAs s p fd fun n => n.inOps = OpTable.sfsNodeDirops
  | Call.fsync fd => OpenAs s p fd fun n => n.inOps = OpTable.devNodeOps
  | Call.getdirentry fd _ => OpenAs s p fd fun n => n.inOps ≠ OpTable.sfsNodeDirops
  | _ => False

variable {env : Env} {N p fd flags : Nat} {tabs : Nat → FilesStruct} {K : Node → Int} {s t : State} {n : Node}
  {path : List UInt8} {file : File}

/-! ## The current directory -/

theorem Acc.dropDir {old : Option Node}
    (h : Acc env N tabs (match old with
      | none => K
      | some m => give K m) s) (hK : ∀ m, 0 ≤ K m) :
    Triple IsHalt (dropDir old) s fun _ t => Acc env N tabs K t := by
  cases old with
  | none => exact h
  | some m => exact Acc.refDec h hK

theorem Acc.vfsSetCurdir (h : Acc env N tabs K s) (htabs : TabsOk tabs) (hp : p < N) (hlive : n.Live s.sfs) :
    Triple IsHalt (vfsSetCurdir env p n) s fun _ t => Good env N K t := by
  unfold Vfs.vfsSetCurdir
  rw [triple_bind, triple_get, h.files]
  refine triple_ite (fun _ => ⟨tabs, htabs, h⟩) fun _ => ?_
  apply (triple_vopGettype hlive).bind
  rintro (ret | type) t ⟨rfl, hdir⟩
  · exact ⟨tabs, htabs, h⟩
  · refine triple_ite (fun _ => ⟨tabs, htabs, h⟩) fun htype => ?_
    have htype : type = FileType.dir := not_not.1 htype
    subst htype
    apply (h.refInc hlive).bind
    rintro _ u ⟨hacc, -⟩
    rw [triple_bind, triple_get, triple_bind, triple_set, hacc.files]
    have hset : Acc env N (setPwd tabs p n) (match (tabs p).pwd with
        | none => K
        | some m => give K m) { u with files := setPwd tabs p n } := by
      refine ⟨hacc.boot, rfl, fun m => ?_, ?_, hacc.live, hacc.links⟩
      · have href := hacc.ref m
        rw [setPwd, holders_update hp]
        change _ ≤ u.ref m
        unfold FilesStruct.holders
        dsimp only
        unfold give at href
        cases hpwd : (tabs p).pwd with
        | none =>
            simp only [reduceCtorEq, if_false, Option.some.injEq, eq_comm (a := n)]
            omega
        | some old =>
            simp only [Option.some.injEq, eq_comm (a := n), eq_comm (a := old), give]
            omega
      · intro m
        cases (tabs p).pwd with
        | none => exact h.nonneg m
        | some old => exact give_nonneg h.nonneg m
    apply Triple.bind (hset.dropDir h.nonneg)
    intro _ v hv
    exact ⟨_, htabs.setPwd (hdir rfl), hv⟩

theorem Acc.vfsChdir (h : Acc env N tabs K s) (htabs : TabsOk tabs) (hp : p < N) :
    Triple IsHalt (vfsChdir env p path) s fun _ t => Good env N K t := by
  unfold Vfs.vfsChdir
  apply (h.vfsLookup htabs.pwd hp).bind
  rintro (ret | n) t ⟨hgot, -, -⟩
  · exact ⟨tabs, htabs, hgot⟩
  · have hacc : Acc env N tabs (give K n) t := hgot
    apply (hacc.vfsSetCurdir htabs hp (hacc.live_of_give h.nonneg)).bind
    rintro ret u ⟨tabs', htabs', hu⟩
    apply (hu.refDec h.nonneg).bind
    intro _ v hv
    exact ⟨tabs', htabs', hv⟩

theorem Acc.namefileLoop {rounds ino resid : Nat} {dir : Bool} {name : List UInt8} (hK : ∀ m, 0 ≤ K m)
    (h : Acc env N tabs (give K (Node.sfs ino dir)) s) :
    Triple IsHalt (namefileLoop rounds ino dir resid name) s fun _ t => Acc env N tabs K t := by
  induction rounds generalizing s ino dir resid name with
  | zero => exact trivial
  | succ rounds ih =>
      unfold Vfs.namefileLoop
      obtain ⟨k, hkind, -⟩ := h.live_of_give hK
      obtain ⟨sin, hsin, -⟩ : ∃ sin, s.sfs.sin ino = some sin ∧ (sin.din.type, sin.din.nlinks) = k := by
        unfold Sfs.kinds at hkind
        simpa using hkind
      apply (h.sfsLookupOnce hsin).bind
      rintro (ret | parent) t ⟨hgot, -⟩
      · exact (Acc.refDec hgot hK).bind fun _ u hu => hu
      · have hacc : Acc env N tabs (give (give K parent) (Node.sfs ino dir)) t := give_comm K _ _ ▸ hgot
        apply (hacc.refDec (give_nonneg hK)).bind
        intro _ u hu
        refine triple_ite (fun hsame => ?_) fun _ => ?_
        · subst hsame
          exact (hu.refDec hK).bind fun _ v hv => hv
        · cases parent with
          | dev d => exact trivial
          | sfs pino pdir =>
              dsimp only
              rw [triple_bind, triple_onSfs, triple_derefSin]
              intro psin _
              rw [triple_bind, triple_codeAssert]
              intro _
              apply (hu.onSfs keeps_sfsDirentFindinoNolock).bind
              rintro (ret | entry) v hv
              · exact (hv.refDec hK).bind fun _ w hw => hw
              · exact triple_ite (fun _ => (hv.refDec hK).bind fun _ w hw => hw) fun _ => ih hv

theorem Acc.vfsGetcwd {len : Nat} (h : Acc env N tabs K s) (htabs : TabsOk tabs) (hp : p < N) :
    Triple IsHalt (vfsGetcwd env p len) s fun _ t => Acc env N tabs K t := by
  unfold Vfs.vfsGetcwd
  apply (h.vfsGetCurdir hp).bind
  rintro (ret | n) t ⟨hgot, -, hpwd⟩
  · exact hgot
  · obtain ⟨ino, rfl⟩ := inOps_dir (htabs.pwd p n hpwd)
    have hacc : Acc env N tabs (give K (Node.sfs ino true)) t := hgot
    dsimp only
    cases vfsGetDevname env with
    | none => exact trivial
    | some devname =>
        refine triple_ite (fun _ => (hacc.refDec h.nonneg).bind fun _ u hu => hu) fun _ => ?_
        have hname : Triple IsHalt (vopNamefile (Node.sfs ino true) (len - (devname.length + 1))) t
            fun _ u => Acc env N tabs (give K (Node.sfs ino true)) u := by
          unfold vopNamefile
          have hop : Vop.vopNamefile ∈ OpTable.sfsNodeDirops.ops := by decide
          apply (triple_vopOp hop).bind
          rintro _ u rfl
          dsimp only
          have hok : Triple IsHalt (if len - (devname.length + 1) ≤ 2 then pure false else kmallocOk) u
              fun _ v => SameKinds u v :=
            triple_ite (fun _ => SameKinds.refl) fun _ => triple_kmallocOk.mono fun _ v hv => hv.same
          apply hok.bind
          intro ok v hv
          have hv' := hacc.same hv
          refine triple_ite (fun _ => ?_) fun _ => hv'
          apply (hv'.refInc (hv'.live_of_give h.nonneg)).bind
          rintro _ w ⟨hw, -⟩
          exact hw.namefileLoop (give_nonneg h.nonneg)
        apply hname.bind
        intro name u hu
        exact (hu.refDec h.nonneg).bind fun _ v hv => hv

/-! ## Opening and closing -/

/-- A free entry is marked, and refers to nothing as before. -/
theorem Acc.fdArrayAlloc {want : Int} (h : Acc env N tabs K s) (hp : p < N) :
    Triple IsHalt (fdArrayAlloc p want) s fun r t => t.sfs = s.sfs ∧ match r with
      | Except.error _ => Acc env N tabs K t
      | Except.ok fd => fd < filesStructNentry ∧ ∃ file, file.status = FdStatus.init ∧ file.openCount = 0 ∧
          ((tabs p).fdArray fd).status = FdStatus.none ∧ Acc env N (setTab tabs p fd file) K t := by
  have hfound : ∀ fd, fd < filesStructNentry → ((tabs p).fdArray fd).status = FdStatus.none →
      Triple IsHalt (fdArrayFound p fd) s fun r t => t.sfs = s.sfs ∧ match r with
        | Except.error _ => Acc env N tabs K t
        | Except.ok fd => fd < filesStructNentry ∧ ∃ file, file.status = FdStatus.init ∧ file.openCount = 0 ∧
            ((tabs p).fdArray fd).status = FdStatus.none ∧ Acc env N (setTab tabs p fd file) K t := by
    intro fd hfd hnone
    unfold fdArrayFound
    rw [triple_bind, triple_getFile, triple_bind, triple_codeAssert, h.files]
    intro hcount
    have hsfs : ∀ file, Triple IsHalt (Vfs.setFile p fd file) s fun _ t => t.sfs = s.sfs := fun file => rfl
    have hstore := h.setFile_same { (tabs p).fdArray fd with status := FdStatus.init, node := none } hp hfd
      fun m => by simp [File.Holds, hnone]
    apply Triple.bind (hstore.and (hsfs { (tabs p).fdArray fd with status := FdStatus.init, node := none }))
    rintro _ t ⟨ht, ht'⟩
    exact ⟨ht', hfd, { (tabs p).fdArray fd with status := FdStatus.init, node := none }, rfl, hcount, hnone, ht⟩
  unfold Vfs.fdArrayAlloc
  rw [triple_bind, triple_get, h.files]
  refine triple_ite (fun _ => ?_) fun _ => triple_ite (fun hwant => ?_) fun _ => ⟨rfl, h⟩
  · cases hfind : (List.range filesStructNentry).find? fun fd =>
        ((tabs p).fdArray fd).status = FdStatus.none with
    | none => exact ⟨rfl, h⟩
    | some fd =>
        have hmem := List.mem_range.1 (List.mem_of_find?_eq_some hfind)
        have hnone := List.find?_some hfind
        exact hfound fd hmem (of_decide_eq_true hnone)
  · exact triple_ite (fun hnone => hfound want.toNat (by omega) hnone) fun _ => ⟨rfl, h⟩

/-- The entry takes over the reference of the running code. -/
theorem Acc.fdArrayOpen (h : Acc env N tabs (give K n) s) (hK : ∀ m, 0 ≤ K m) (hp : p < N)
    (hfd : fd < filesStructNentry) (hfile : (tabs p).fdArray fd = file) (hinit : file.status = FdStatus.init)
    (hnode : file.node = some n) :
    Triple IsHalt (fdArrayOpen p fd) s fun _ t =>
      Acc env N (setTab tabs p fd { file with status := FdStatus.opened, openCount := file.openCount + 1 }) K t := by
  unfold Vfs.fdArrayOpen
  rw [triple_bind, triple_getFile, triple_bind, triple_codeAssert, h.files, hfile]
  intro _
  apply h.setFile _ hp hfd hK
  · intro m
    have hold : ¬ ((tabs p).fdArray fd).Holds m := by
      rw [hfile]
      rintro ⟨hopened, -⟩
      rw [hinit] at hopened
      cases hopened
    rw [if_neg hold, give]
    by_cases hm : m = n
    · subst hm
      rw [if_pos ⟨rfl, hnode⟩, if_pos rfl]
      ring
    · rw [if_neg, if_neg hm]
      · ring
      · rintro ⟨-, hm'⟩
        exact hm (Option.some.inj (hm'.symm.trans hnode))

/-- The end of `file_open`: the entry holds the node. -/
theorem Acc.fileOpened {pos : Int} (h : Acc env N tabs (give K n) s) (hK : ∀ m, 0 ≤ K m) (hp : p < N)
    (hfd : fd < filesStructNentry) (hfile : (tabs p).fdArray fd = file) (hinit : file.status = FdStatus.init)
    (hcount : file.openCount = 0) (hdir : n.inOps = OpTable.sfsNodeDirops → accmode flags = oRdonly) :
    Triple IsHalt (fileOpened p fd n flags pos) s fun _ t => ∃ file, FileOk file ∧
      Acc env N (setTab tabs p fd file) K t := by
  unfold Vfs.fileOpened
  rw [triple_bind, triple_getFile, h.files, hfile]
  have hstore := h.setFile_same
    { file with
      pos := pos
      node := some n
      readable := decide (accmode flags ≠ oWronly)
      writable := decide (accmode flags ≠ oRdonly) } hp hfd (by
    intro m
    rw [hfile]
    simp [File.Holds, hinit])
  apply hstore.bind
  intro _ t ht
  apply (ht.fdArrayOpen hK hp hfd setTab_self hinit rfl).bind
  intro _ u hu
  rw [setTab_setTab] at hu
  refine ⟨_, Or.inr ⟨rfl, ?_, n, rfl, fun hops => ?_⟩, hu⟩
  · dsimp only
    omega
  · dsimp only
    rw [decide_eq_false (not_not.2 (hdir hops))]

theorem Acc.fileOpen (h : Acc env N tabs K s) (htabs : TabsOk tabs) (hp : p < N)
    (hok : ¬ OpenUnsupported env (tabs p).pwd s.sfs path flags) :
    Triple IsHalt (fileOpen env p path flags) s fun _ t => Good env N K t := by
  unfold Vfs.fileOpen
  refine triple_ite (fun _ => ⟨tabs, htabs, h⟩) fun _ => ?_
  apply (h.fdArrayAlloc hp).bind
  rintro (ret | fd) t ⟨hsfs, hr⟩
  · exact ⟨tabs, htabs, hr⟩
  · obtain ⟨hfd, file, hinit, hcount, hnone, hacc⟩ := hr
    -- the marked entry is not in order, but refers to nothing
    have hfree : ∀ u, Acc env N (setTab tabs p fd file) K u → Triple IsHalt (Vfs.fdArrayFree p fd) u
        fun _ v => Good env N K v := by
      intro u hu
      apply (hu.fdArrayFree hp hfd (by rw [setTab_self]; exact hinit)).mono
      intro _ v hv
      rw [setTab_setTab] at hv
      exact ⟨_, htabs.setTab (Or.inl rfl), hv⟩
    have hopen : Triple IsHalt (Vfs.vfsOpen env p path flags) t fun r u =>
        Opened env N (setTab tabs p fd file) K flags r u :=
      hacc.vfsOpen htabs.pwd.setTab hp (by rwa [setTab_pwd, hsfs])
    apply hopen.bind
    rintro (ret | n) u ⟨hgot, hdir⟩
    · exact (hfree u hgot).bind fun _ v hv => hv
    · have hgot : Acc env N (setTab tabs p fd file) (give K n) u := hgot
      have hopened : ∀ pos v, Acc env N (setTab tabs p fd file) (give K n) v →
          Triple IsHalt (Vfs.fileOpened p fd n flags pos) v fun _ w => Good env N K w := by
        intro pos v hv
        apply (hv.fileOpened h.nonneg hp hfd setTab_self hinit hcount (hdir n rfl)).mono
        rintro _ w ⟨file', hfile', hw⟩
        rw [setTab_setTab] at hw
        exact ⟨_, htabs.setTab hfile', hw⟩
      refine triple_ite (fun _ => ?_) fun _ => hopened 0 u hgot
      apply (triple_vopFstat (hgot.live_of_give h.nonneg)).bind
      rintro (ret | stat) v rfl
      · apply (hgot.vfsClose h.nonneg).bind
        intro _ w hw
        exact (hfree w hw).bind fun _ x hx => hx
      · exact hopened stat.size v hgot

/-! ## Using an open file -/

theorem holders_file (hp : p < N) (hfd : fd < filesStructNentry) (hn : ((tabs p).fdArray fd).Holds n) :
    0 < holders N tabs n := by
  have hnonneg : ∀ q, 0 ≤ (tabs q).holders n := by
    intro q
    apply add_nonneg
    · split <;> decide
    · apply Finset.sum_nonneg
      intro fd _
      split <;> decide
  have hterm : 0 < (tabs p).holders n := by
    unfold FilesStruct.holders
    have hpwd : 0 ≤ if (tabs p).pwd = some n then (1 : Int) else 0 := by split <;> decide
    have hsum : 0 < ∑ fd ∈ Finset.range filesStructNentry, if ((tabs p).fdArray fd).Holds n then (1 : Int) else 0 := by
      apply Finset.sum_pos' (fun q _ => by split <;> decide) ⟨fd, Finset.mem_range.2 hfd, _⟩
      rw [if_pos hn]
      decide
    omega
  exact Finset.sum_pos' (fun q _ => hnonneg q) ⟨p, Finset.mem_range.2 hp, hterm⟩

/-- The node of an open file is in memory, and a directory is not open for writing. -/
theorem Acc.opened (h : Acc env N tabs K s) (htabs : TabsOk tabs) (hp : p < N) (hfd : fd < filesStructNentry)
    (hopened : ((tabs p).fdArray fd).status = FdStatus.opened) :
    ((tabs p).fdArray fd).openCount = 1 ∧ ∃ n, ((tabs p).fdArray fd).Holds n ∧ n.Live s.sfs ∧
      (n.inOps = OpTable.sfsNodeDirops → ((tabs p).fdArray fd).writable = false) := by
  rcases htabs.file p fd with hnone | ⟨-, hcount, n, hnode, hdir⟩
  · rw [hopened] at hnone
    cases hnone
  · refine ⟨hcount, n, ⟨hopened, hnode⟩, ?_, hdir⟩
    apply h.live
    have href := h.ref n
    have hbase := env.base_nonneg n
    have hholders := holders_file hp hfd ⟨hopened, hnode⟩
    have hK := h.nonneg n
    omega

theorem triple_nodeOf {Q : Node → State → Prop} :
    Triple IsHalt (nodeOf p fd) s Q ↔ ∀ n, ((s.files p).fdArray fd).node = some n → Q n s := by
  unfold nodeOf
  rw [triple_bind, triple_getFile, triple_fileNode]

/-- The state after `fd_array_acquire`, for a file with the node `n`. -/
structure Acquired (env : Env) (N : Nat) (tabs : Nat → FilesStruct) (p fd : Nat) (K : Node → Int) (n : Node)
    (t : State) : Prop where
  acc : Acc env N (setTab tabs p fd { (tabs p).fdArray fd with
    openCount := ((tabs p).fdArray fd).openCount + 1 }) K t
  count : ((tabs p).fdArray fd).openCount = 1
  holds : ((tabs p).fdArray fd).Holds n
  live : n.Live t.sfs
  writable : n.inOps = OpTable.sfsNodeDirops → ((tabs p).fdArray fd).writable = false

theorem Acc.acquire (h : Acc env N tabs K s) (htabs : TabsOk tabs) (hp : p < N) (hfd : fd < filesStructNentry) :
    Triple IsHalt (Vfs.fdArrayAcquire p fd) s fun _ t => ∃ n, Acquired env N tabs p fd K n t := by
  apply (h.fdArrayAcquire hp hfd).mono
  rintro _ t ⟨hopened, ht⟩
  obtain ⟨hcount, n, hholds, -, hdir⟩ := h.opened htabs hp hfd hopened
  refine ⟨n, ht, hcount, hholds, ?_, hdir⟩
  apply ht.live
  have hfile : ((setTab tabs p fd { (tabs p).fdArray fd with
      openCount := ((tabs p).fdArray fd).openCount + 1 } p).fdArray fd).Holds n := by
    rw [setTab_self]
    exact hholds
  have href := ht.ref n
  have hbase := env.base_nonneg n
  have hholders := holders_file hp hfd hfile
  have hK := h.nonneg n
  omega

theorem Acquired.nodeOf (h : Acquired env N tabs p fd K n t) :
    Triple IsHalt (Vfs.nodeOf p fd) t fun m u => n = m ∧ u = t := by
  rw [triple_nodeOf, h.acc.files, setTab_self]
  intro m hm
  exact ⟨Option.some.inj (h.holds.2.symm.trans hm), rfl⟩

/-- The release of a file that is in use once more than before. -/
theorem Acc.release (h : Acc env N (setTab tabs p fd file) K s) (hp : p < N) (hfd : fd < filesStructNentry)
    (hn : file.Holds n) (hcount : file.openCount = 2)
    (hdir : n.inOps = OpTable.sfsNodeDirops → file.writable = false) :
    Triple IsHalt (Vfs.fdArrayRelease p fd) s fun _ t => ∃ file', FileOk file' ∧ file'.Holds n ∧
      Acc env N (setTab tabs p fd file') K t := by
  apply (h.fdArrayRelease hp hfd (by rw [setTab_self]; exact hn.1)).mono
  intro _ t ht
  rw [setTab_self, setTab_setTab] at ht
  refine ⟨{ file with openCount := file.openCount - 1 }, Or.inr ⟨hn.1, ?_, n, hn.2, hdir⟩, hn, ht⟩
  dsimp only
  omega

/-- An operation between `fd_array_acquire` and `fd_array_release`. -/
theorem Acc.useFile {α : Type} {f : Node → Code α} (h : Acc env N tabs K s) (htabs : TabsOk tabs) (hp : p < N)
    (hfd : fd < filesStructNentry)
    (hf : ∀ n t, ((tabs p).fdArray fd).Holds n → n.Live t.sfs → Triple IsHalt (f n) t fun _ u => SameKinds t u) :
    Triple IsHalt (do
      Vfs.fdArrayAcquire p fd
      let node ← Vfs.nodeOf p fd
      let r ← f node
      Vfs.fdArrayRelease p fd
      pure r) s fun _ t => Good env N K t := by
  apply (h.acquire htabs hp hfd).bind
  rintro _ t ⟨n, ht⟩
  apply ht.nodeOf.bind
  rintro _ u ⟨rfl, rfl⟩
  apply (hf n u ht.holds ht.live).bind
  intro r v hv
  apply ((ht.acc.same hv).release hp hfd ht.holds (by simp [ht.count]) ht.writable).bind
  rintro _ w ⟨file', hfile', -, hw⟩
  exact ⟨_, htabs.setTab hfile', hw⟩

theorem Acc.fileClose {i : Int} (h : Acc env N tabs K s) (htabs : TabsOk tabs) (hp : p < N) :
    Triple IsHalt (fileClose p i) s fun _ t => Good env N K t := by
  unfold Vfs.fileClose
  apply triple_fd2file.bind
  rintro (_ | fd) t ⟨rfl, hfd⟩
  · exact ⟨tabs, htabs, h⟩
  · obtain ⟨-, -, -, hlt, -⟩ := hfd fd rfl
    exact (h.fdArrayClose htabs hp hlt).bind fun _ u hu => hu

theorem Acc.fileFstat {i : Int} (h : Acc env N tabs K s) (htabs : TabsOk tabs) (hp : p < N) :
    Triple IsHalt (fileFstat env p i) s fun _ t => Good env N K t := by
  unfold Vfs.fileFstat
  apply triple_fd2file.bind
  rintro (_ | fd) t ⟨rfl, hfd⟩
  · exact ⟨tabs, htabs, h⟩
  · obtain ⟨-, -, -, hlt, -⟩ := hfd fd rfl
    apply h.useFile htabs hp hlt
    intro n u _ hlive
    exact (triple_vopFstat hlive).mono fun _ v hv => hv ▸ SameKinds.refl

theorem Acc.fileFsync {i : Int} (h : Acc env N tabs K s) (htabs : TabsOk tabs) (hp : p < N)
    (hok : ¬ OpenAs s p i fun n => n.inOps = OpTable.devNodeOps) :
    Triple IsHalt (fileFsync p i) s fun _ t => Good env N K t := by
  unfold Vfs.fileFsync
  apply triple_fd2file.bind
  rintro (_ | fd) t ⟨rfl, hfd⟩
  · exact ⟨tabs, htabs, h⟩
  · obtain ⟨hnonneg, hmax, rfl, hlt, -⟩ := hfd fd rfl
    apply h.useFile htabs hp hlt
    intro n u hholds _
    cases n with
    | sfs ino dir => exact triple_vopFsync
    | dev d => exact absurd ⟨hnonneg, hmax, _, h.files ▸ hholds, rfl⟩ hok

theorem Acc.fileGetdirentry {i offset : Int} (h : Acc env N tabs K s) (htabs : TabsOk tabs) (hp : p < N)
    (hok : ¬ OpenAs s p i fun n => n.inOps ≠ OpTable.sfsNodeDirops) :
    Triple IsHalt (fileGetdirentry p i offset) s fun _ t => Good env N K t := by
  unfold Vfs.fileGetdirentry
  apply triple_fd2file.bind
  rintro (_ | fd) t ⟨rfl, hfd⟩
  · exact ⟨tabs, htabs, h⟩
  · obtain ⟨hnonneg, hmax, rfl, hlt, -⟩ := hfd fd rfl
    apply h.useFile htabs hp hlt
    intro n u hholds _
    have hops : n.inOps = OpTable.sfsNodeDirops := by
      by_contra hne
      exact hok ⟨hnonneg, hmax, n, h.files ▸ hholds, hne⟩
    obtain ⟨ino, rfl⟩ := inOps_dir hops
    unfold vopGetdirentry
    have hop : Vop.vopGetdirentry ∈ OpTable.sfsNodeDirops.ops := by decide
    apply (triple_vopOp hop).bind
    rintro _ v rfl
    exact same_onSfs keeps_direntryAt

theorem triple_vopTryseek {pos : Int} (hop : n.inOps ≠ OpTable.sfsNodeDirops) :
    Triple IsHalt (vopTryseek env n pos) s fun _ t => SameKinds s t := by
  unfold vopTryseek
  cases n with
  | sfs ino dir =>
      cases dir with
      | true => exact absurd rfl hop
      | false =>
          have hmem : Vop.vopTryseek ∈ OpTable.sfsNodeFileops.ops := by decide
          apply (triple_vopOp hmem).bind
          rintro _ t rfl
          refine triple_ite (fun _ => SameKinds.refl) fun _ => ?_
          rw [triple_bind, triple_onSfs, triple_derefSin]
          intro sin _
          exact triple_ite (fun _ => triple_vopTruncate) fun _ => SameKinds.refl
  | dev d =>
      apply (triple_vopOp (mem_ops_dev (by decide))).bind
      rintro _ t rfl
      exact SameKinds.refl

theorem Acc.fileSeek {i pos : Int} {whence : Nat} (h : Acc env N tabs K s) (htabs : TabsOk tabs) (hp : p < N)
    (hok : ¬ (whence ≤ 2 ∧ OpenAs s p i fun n => n.inOps = OpTable.sfsNodeDirops)) :
    Triple IsHalt (fileSeek env p i pos whence) s fun _ t => Good env N K t := by
  unfold Vfs.fileSeek
  apply triple_fd2file.bind
  rintro (_ | fd) t ⟨rfl, hfd⟩
  · exact ⟨tabs, htabs, h⟩
  · obtain ⟨hnonneg, hmax, rfl, hlt, -⟩ := hfd fd rfl
    apply (h.acquire htabs hp hlt).bind
    rintro _ u ⟨n, hu⟩
    apply hu.nodeOf.bind
    rintro _ v ⟨rfl, rfl⟩
    rw [triple_bind, triple_getFile, hu.acc.files, setTab_self]
    have htarget : Triple IsHalt (seekTarget env n ((tabs p).fdArray i.toNat).pos pos whence) v
        fun r w => w = v ∧ ∀ x, r = Except.ok x → whence ≤ 2 := by
      unfold seekTarget
      split
      · exact ⟨rfl, fun _ _ => by omega⟩
      · exact ⟨rfl, fun _ _ => by omega⟩
      · apply (triple_vopFstat hu.live).bind
        rintro (ret | stat) w rfl
        · exact ⟨rfl, fun _ _ => by omega⟩
        · exact ⟨rfl, fun _ _ => by omega⟩
      · exact ⟨rfl, fun _ hx => by cases hx⟩
    apply htarget.bind
    rintro (ret | target) w ⟨rfl, hwhence⟩
    · apply (hu.acc.release hp hlt hu.holds (by simp [hu.count]) hu.writable).bind
      rintro _ x ⟨file', hfile', -, hx⟩
      exact ⟨_, htabs.setTab hfile', hx⟩
    · have hops : n.inOps ≠ OpTable.sfsNodeDirops := by
        intro hdir
        exact hok ⟨hwhence target rfl, hnonneg, hmax, n, h.files ▸ hu.holds, hdir⟩
      apply (triple_vopTryseek hops).bind
      intro ret x hx
      have hacc := hu.acc.same hx
      rw [triple_bind, triple_getFile, hacc.files, setTab_self, triple_bind]
      have hstore : Triple IsHalt (if ret = 0 then Vfs.setFile p i.toNat
          { (tabs p).fdArray i.toNat with
            openCount := ((tabs p).fdArray i.toNat).openCount + 1
            pos := target } else pure ()) x fun _ y => ∃ file, file.Holds n ∧ file.openCount = 2 ∧
              (n.inOps = OpTable.sfsNodeDirops → file.writable = false) ∧
              Acc env N (setTab tabs p i.toNat file) K y := by
        refine triple_ite (fun _ => ?_) fun _ => ?_
        · apply Triple.mono (hacc.setFile_same _ hp hlt fun m => by rw [setTab_self]; exact Iff.rfl)
          intro _ y hy
          rw [setTab_setTab] at hy
          exact ⟨{ (tabs p).fdArray i.toNat with
            openCount := ((tabs p).fdArray i.toNat).openCount + 1
            pos := target }, hu.holds, by simp [hu.count], hu.writable, hy⟩
        · exact ⟨{ (tabs p).fdArray i.toNat with
            openCount := ((tabs p).fdArray i.toNat).openCount + 1 },
            hu.holds, by simp [hu.count], hu.writable, hacc⟩
      apply hstore.mono
      rintro _ y ⟨file, hholds, hcount, hdir, hy⟩
      apply (hy.release hp hlt hholds hcount hdir).bind
      rintro _ z ⟨file', hfile', -, hz⟩
      exact ⟨_, htabs.setTab hfile', hz⟩

/-! ## Reading and writing -/

theorem keeps_stdinRead {κ : Nat → Option (Nat × Nat)} {count : Nat} :
    Keeps AnyError (KindsAre κ) (stdinRead count) := by
  induction count with
  | zero => exact Keeps.pure _
  | succ count ih =>
      unfold stdinRead
      have hask : Keeps AnyError (KindsAre κ) ask := fun _ hs => hs
      apply Keeps.bind hask
      intro c
      apply Keeps.bind ih
      intro rest
      exact Keeps.pure _

theorem keeps_disk0Loop {κ : Nat → Option (Nat × Nat)} {write : Bool} {nblks blkno : Nat} {buf : List UInt8} :
    Keeps AnyError (KindsAre κ) (disk0Loop write nblks blkno buf) := by
  induction nblks generalizing blkno buf with
  | zero => exact Keeps.pure _
  | succ nblks ih =>
      unfold disk0Loop
      apply Keeps.bind keeps_fails
      intro failed
      apply Keeps.bind keeps_sfsAssert
      intro _ sfs hsfs
      rw [triple_bind, triple_get]
      refine triple_ite (fun _ => ?_) fun _ => ?_
      · rw [triple_bind, triple_set]
        apply Triple.bind (ih { sfs with disk := Function.update sfs.disk blkno fun i => buf.getD i 0 } hsfs)
        intro rest t ht
        exact ht
      · exact (ih sfs hsfs).bind fun rest t ht => ht

theorem keeps_dopDevIo {κ : Nat → Option (Nat × Nat)} {d : Device} {buf : List UInt8} {offset : Int} {len : Nat}
    {write : Bool} : Keeps AnyError (KindsAre κ) (dopDevIo env d buf offset len write) := by
  unfold dopDevIo
  cases d with
  | stdin =>
      apply Keeps.ite (Keeps.pure _)
      have hask : Keeps AnyError (KindsAre κ) ask := fun _ hs => hs
      apply Keeps.bind hask
      intro count
      apply Keeps.bind keeps_stdinRead
      intro bytes
      exact Keeps.pure _
  | stdout => exact Keeps.pure _
  | disk0 =>
      apply Keeps.ite (Keeps.pure _)
      apply Keeps.ite (Keeps.pure _)
      apply Keeps.bind keeps_disk0Loop
      intro bytes
      exact Keeps.pure _

theorem triple_vopRead {len : Nat} {offset : Int} (hop : n.inOps ≠ OpTable.sfsNodeDirops) :
    Triple IsHalt (vopRead env n len offset) s fun _ t => SameKinds s t := by
  unfold vopRead
  cases n with
  | sfs ino dir =>
      cases dir with
      | true => exact absurd rfl hop
      | false =>
          have hmem : Vop.vopRead ∈ OpTable.sfsNodeFileops.ops := by decide
          apply (triple_vopOp hmem).bind
          rintro _ t rfl
          exact same_onSfs keeps_sfsIoNolock
  | dev d =>
      apply (triple_vopOp (mem_ops_dev (by decide))).bind
      rintro _ t rfl
      exact same_onSfs keeps_dopDevIo

theorem triple_vopWrite {buf : List UInt8} {offset : Int} (hop : n.inOps ≠ OpTable.sfsNodeDirops) :
    Triple IsHalt (vopWrite env n buf offset) s fun _ t => SameKinds s t := by
  unfold vopWrite
  cases n with
  | sfs ino dir =>
      cases dir with
      | true => exact absurd rfl hop
      | false =>
          have hmem : Vop.vopWrite ∈ OpTable.sfsNodeFileops.ops := by decide
          apply (triple_vopOp hmem).bind
          rintro _ t rfl
          exact same_onSfs keeps_sfsIoNolock
  | dev d =>
      apply (triple_vopOp (mem_ops_dev (by decide))).bind
      rintro _ t rfl
      exact same_onSfs keeps_dopDevIo

/-- The tables are in order, and the descriptor is not open for a directory. -/
def GoodFile (env : Env) (N p : Nat) (i : Int) (K : Node → Int) (s : State) : Prop :=
  ∃ tabs, TabsOk tabs ∧ Acc env N tabs K s ∧
    ∀ n, ((tabs p).fdArray i.toNat).Holds n → n.inOps ≠ OpTable.sfsNodeDirops

theorem Acquired.moved {copied : Nat} (h : Acquired env N tabs p fd K n t) (hst : SameKinds t s)
    (hp : p < N) (hfd : fd < filesStructNentry) :
    Triple IsHalt (fileMoved p fd copied) s fun _ u => ∃ file', FileOk file' ∧ file'.Holds n ∧
      Acc env N (setTab tabs p fd file') K u := by
  have hacc := h.acc.same hst
  unfold fileMoved
  rw [triple_bind, triple_getFile, hacc.files, setTab_self, triple_bind]
  dsimp only
  rw [if_pos h.holds.1]
  apply Triple.mono (hacc.setFile_same _ hp hfd fun m => by rw [setTab_self]; exact Iff.rfl)
  intro _ u hu
  rw [setTab_setTab] at hu
  exact hu.release hp hfd h.holds (by simp [h.count]) h.writable

theorem GoodFile.fileRead {i : Int} {len : Nat} (h : GoodFile env N p i K s) (hp : p < N) :
    Triple IsHalt (fileRead env p i len) s fun _ t => GoodFile env N p i K t := by
  obtain ⟨tabs, htabs, hacc, hdir⟩ := h
  unfold Vfs.fileRead
  apply triple_fd2file.bind
  rintro (_ | fd) t ⟨rfl, hfd⟩
  · exact ⟨tabs, htabs, hacc, hdir⟩
  · obtain ⟨-, -, rfl, hlt, -⟩ := hfd fd rfl
    rw [triple_bind, triple_getFile]
    refine triple_ite (fun _ => ⟨tabs, htabs, hacc, hdir⟩) fun _ => ?_
    apply (hacc.acquire htabs hp hlt).bind
    rintro _ u ⟨n, hu⟩
    apply hu.nodeOf.bind
    rintro _ v ⟨rfl, rfl⟩
    apply (triple_vopRead (hdir n hu.holds)).bind
    rintro ⟨ret, bytes⟩ w hw
    apply (hu.moved hw hp hlt).bind
    rintro _ x ⟨file', hfile', hholds, hx⟩
    refine ⟨_, htabs.setTab hfile', hx, fun m hm => ?_⟩
    rw [setTab_self] at hm
    cases hm.2.symm.trans hholds.2
    exact hdir n hu.holds

theorem Acc.fileWrite {i : Int} {buf : List UInt8} (h : Acc env N tabs K s) (htabs : TabsOk tabs) (hp : p < N) :
    Triple IsHalt (fileWrite env p i buf) s fun _ t => Good env N K t := by
  unfold Vfs.fileWrite
  apply triple_fd2file.bind
  rintro (_ | fd) t ⟨rfl, hfd⟩
  · exact ⟨tabs, htabs, h⟩
  · obtain ⟨-, -, rfl, hlt, -⟩ := hfd fd rfl
    rw [triple_bind, triple_getFile, h.files]
    refine triple_ite (fun _ => ⟨tabs, htabs, h⟩) fun hwritable => ?_
    apply (h.acquire htabs hp hlt).bind
    rintro _ u ⟨n, hu⟩
    apply hu.nodeOf.bind
    rintro _ v ⟨rfl, rfl⟩
    have hops : n.inOps ≠ OpTable.sfsNodeDirops := fun hdir => hwritable (hu.writable hdir)
    apply (triple_vopWrite hops).bind
    rintro ⟨ret, bytes⟩ w hw
    apply (hu.moved hw hp hlt).bind
    rintro _ x ⟨file', hfile', -, hx⟩
    exact ⟨_, htabs.setTab hfile', hx⟩

theorem Good.calm (h : Good env N K s) (hst : Calm s t) : Good env N K t := by
  obtain ⟨tabs, htabs, hacc⟩ := h
  exact ⟨tabs, htabs, hacc.same hst.same⟩

theorem GoodFile.calm {i : Int} (h : GoodFile env N p i K s) (hst : Calm s t) : GoodFile env N p i K t := by
  obtain ⟨tabs, htabs, hacc, hdir⟩ := h
  exact ⟨tabs, htabs, hacc.same hst.same, hdir⟩

theorem GoodFile.good {i : Int} (h : GoodFile env N p i K s) : Good env N K s := by
  obtain ⟨tabs, htabs, hacc, -⟩ := h
  exact ⟨tabs, htabs, hacc⟩

theorem GoodFile.readLoop {i : Int} {rounds len copied : Nat} (h : GoodFile env N p i K s) (hp : p < N) :
    Triple IsHalt (readLoop env p i rounds len copied) s fun _ t => Good env N K t := by
  induction rounds generalizing s len copied with
  | zero => exact h.good
  | succ rounds ih =>
      unfold Vfs.readLoop
      refine triple_ite (fun _ => h.good) fun _ => ?_
      apply (h.fileRead hp).bind
      rintro ⟨ret, bytes⟩ t ht
      have hcopy : Triple IsHalt (if bytes ≠ [] then Vfs.onSfs fails else pure false) t fun _ u =>
          GoodFile env N p i K u :=
        triple_ite (fun _ => calm_fails.mono fun _ u hu => ht.calm hu) fun _ => ht
      apply hcopy.bind
      intro bad u hu
      rw [triple_bind, triple_codeAssert]
      intro _
      exact triple_ite (fun _ => hu.good) fun _ => ih hu

theorem Good.writeLoop {i : Int} {rounds copied : Nat} {data : List UInt8} (h : Good env N K s) (hp : p < N) :
    Triple IsHalt (writeLoop env p i rounds data copied) s fun _ t => Good env N K t := by
  induction rounds generalizing s data copied with
  | zero => exact h
  | succ rounds ih =>
      unfold Vfs.writeLoop
      refine triple_ite (fun _ => h) fun _ => ?_
      apply calm_fails.bind
      intro bad t ht
      have ht := h.calm ht
      refine triple_ite (fun _ => ht) fun _ => ?_
      obtain ⟨tabs, htabs, hacc⟩ := ht
      apply (hacc.fileWrite htabs hp).bind
      rintro ⟨ret, moved⟩ u hu
      rw [triple_bind, triple_codeAssert]
      intro _
      exact triple_ite (fun _ => hu) fun _ => ih hu

theorem triple_fileTestfd {i : Int} {readable writable : Bool} :
    Triple IsHalt (fileTestfd p i readable writable) s fun ok t => t = s ∧
      (ok = true → 0 ≤ i ∧ i < filesStructNentry) := by
  unfold fileTestfd
  apply triple_fd2file.bind
  rintro (_ | fd) t ⟨rfl, hfd⟩
  · exact ⟨rfl, fun hok => by cases hok⟩
  · obtain ⟨hnonneg, hmax, -⟩ := hfd fd rfl
    exact ⟨rfl, fun _ => ⟨hnonneg, hmax⟩⟩

theorem Acc.fileDup {i want : Int} (h : Acc env N tabs K s) (htabs : TabsOk tabs) (hp : p < N) :
    Triple IsHalt (fileDup p i want) s fun _ t => Good env N K t := by
  unfold Vfs.fileDup
  apply triple_fd2file.bind
  rintro (_ | source) t ⟨rfl, hfd⟩
  · exact ⟨tabs, htabs, h⟩
  · obtain ⟨-, -, -, hlt, hopened⟩ := hfd source rfl
    rw [h.files] at hopened
    obtain ⟨-, n, hholds, -, hdir⟩ := h.opened htabs hp hlt hopened
    apply (h.fdArrayAlloc hp).bind
    rintro (ret | target) u ⟨-, hr⟩
    · exact ⟨tabs, htabs, hr⟩
    · obtain ⟨htarget, file, hinit, hcount, hnone, hacc⟩ := hr
      have hne : source ≠ target := by
        rintro rfl
        rw [hopened] at hnone
        cases hnone
      have hsource : (setTab tabs p target file p).fdArray source = (tabs p).fdArray source := by
        simp [setTab, hne]
      rw [triple_bind]
      unfold fdArrayDup
      rw [triple_bind, triple_getFile, triple_bind, triple_getFile, hacc.files, setTab_self, hsource, triple_bind,
        triple_codeAssert]
      intro _
      rw [triple_bind, triple_fileNode]
      intro m hm
      cases hm.symm.trans hholds.2
      have hlive : n.Live u.sfs := by
        apply hacc.live
        have href := hacc.ref n
        have hbase := env.base_nonneg n
        have hfile : ((setTab tabs p target file p).fdArray source).Holds n := by
          rw [hsource]
          exact hholds
        have hholders := holders_file hp hlt hfile
        have hK := h.nonneg n
        omega
      apply (hacc.refInc hlive).bind
      rintro _ v ⟨hv, -⟩
      apply hv.openInc.bind
      intro _ w hw
      have hstore := hw.setFile_same
        { file with
          pos := ((tabs p).fdArray source).pos
          readable := ((tabs p).fdArray source).readable
          writable := ((tabs p).fdArray source).writable
          node := some n } hp htarget (by
        intro m
        rw [setTab_self]
        simp [File.Holds, hinit])
      apply hstore.bind
      intro _ x hx
      apply (hx.fdArrayOpen h.nonneg hp htarget setTab_self hinit rfl).mono
      intro _ y hy
      rw [setTab_setTab, setTab_setTab] at hy
      have hfile : FileOk
          { file with
            status := FdStatus.opened
            pos := ((tabs p).fdArray source).pos
            readable := ((tabs p).fdArray source).readable
            writable := ((tabs p).fdArray source).writable
            node := some n
            openCount := file.openCount + 1 } := Or.inr ⟨rfl, by simp [hcount], n, rfl, hdir⟩
      exact ⟨_, htabs.setTab hfile, hy⟩

/-! ## System calls -/

theorem triple_copyPath : Triple IsHalt copyPath s fun _ t => Calm s t := by
  unfold copyPath
  apply triple_kmallocOk.bind
  intro ok t ht
  refine triple_ite (fun _ => ?_) fun _ => ht
  apply calm_fails.bind
  intro bad u hu
  obtain ⟨sfs, rfl, hq⟩ := ht
  obtain ⟨sfs', rfl, hq'⟩ := hu
  exact ⟨sfs', rfl, hq.trans hq'⟩

/-- A system call that is supported does not select a missing operation, and leaves the tables in order. -/
theorem Good.exec (h : Good env N K s) (hp : p < N) {call : Call} (hok : ¬ Unsupported env s p call) :
    Triple IsHalt (call.exec env p) s fun _ t => Good env N K t := by
  obtain ⟨tabs, htabs, hacc⟩ := h
  have hgood : Good env N K s := ⟨tabs, htabs, hacc⟩
  cases call with
  | sysOpen path flags =>
      unfold Call.exec sysfileOpen
      apply triple_copyPath.bind
      intro ret t ht
      refine triple_ite (fun _ => hgood.calm ht) fun _ => ?_
      apply (hacc.same ht.same).fileOpen htabs hp
      intro hunsupported
      apply hok
      unfold Unsupported
      rw [hacc.files]
      unfold OpenUnsupported CreatesMissing at hunsupported ⊢
      simp only [ht.quiet.namedNode] at hunsupported
      exact hunsupported
  | close fd => exact hacc.fileClose htabs hp
  | read fd len =>
      unfold Call.exec sysfileRead
      refine triple_ite (fun _ => hgood) fun hlen => ?_
      apply triple_fileTestfd.bind
      rintro ready t ⟨rfl, hready⟩
      refine triple_ite (fun _ => hgood) fun hnot => ?_
      obtain ⟨hnonneg, hmax⟩ := hready (Bool.eq_true_of_not_eq_false hnot)
      apply triple_kmallocOk.bind
      intro _ u hu
      refine triple_ite (fun _ => ?_) fun _ => hgood.calm hu
      have hfile : GoodFile env N p fd K t := by
        refine ⟨tabs, htabs, hacc, fun n hholds hdir => hok ⟨Nat.pos_of_ne_zero hlen, hnonneg, hmax, n, ?_, hdir⟩⟩
        rw [hacc.files]
        exact hholds
      exact (hfile.calm hu).readLoop hp
  | write fd data =>
      unfold Call.exec sysfileWrite
      refine triple_ite (fun _ => hgood) fun hlen => ?_
      apply triple_fileTestfd.bind
      rintro _ t ⟨rfl, -⟩
      refine triple_ite (fun _ => hgood) fun _ => ?_
      apply triple_kmallocOk.bind
      intro _ u hu
      exact triple_ite (fun _ => (hgood.calm hu).writeLoop hp) fun _ => hgood.calm hu
  | seek fd pos whence => exact hacc.fileSeek htabs hp hok
  | fstat fd =>
      unfold Call.exec sysfileFstat
      apply (hacc.fileFstat htabs hp).bind
      rintro (ret | stat) t ht
      · exact ht
      · exact calm_fails.bind fun bad u hu => ht.calm hu
  | fsync fd => exact hacc.fileFsync htabs hp hok
  | getdirentry fd offset =>
      unfold Call.exec sysfileGetdirentry
      apply triple_kmallocOk.bind
      intro ok t ht
      refine triple_ite (fun _ => ?_) fun _ => hgood.calm ht
      apply calm_fails.bind
      intro bad u hu
      refine triple_ite (fun _ => (hgood.calm ht).calm hu) fun _ => ?_
      have hsame : Acc env N tabs K u := (hacc.same ht.same).same hu.same
      apply (hsame.fileGetdirentry htabs hp ?_).bind
      · rintro (ret | entry) v hv
        · exact hv
        · exact calm_fails.bind fun bad w hw => hv.calm hw
      · intro hunsupported
        apply hok
        unfold Unsupported
        unfold OpenAs at hunsupported ⊢
        rw [hacc.files]
        rw [hsame.files] at hunsupported
        exact hunsupported
  | dup fd1 fd2 => exact hacc.fileDup htabs hp
  | chdir path =>
      unfold Call.exec sysfileChdir
      apply triple_copyPath.bind
      intro ret t ht
      exact triple_ite (fun _ => hgood.calm ht) fun _ => (hacc.same ht.same).vfsChdir htabs hp
  | getcwd len =>
      unfold Call.exec sysfileGetcwd
      refine triple_ite (fun _ => hgood) fun _ => ?_
      apply calm_fails.bind
      intro bad t ht
      refine triple_ite (fun _ => hgood.calm ht) fun _ => ?_
      apply ((hacc.same ht.same).vfsGetcwd htabs hp).bind
      rintro (ret | name) u hu
      · exact ⟨tabs, htabs, hu⟩
      · exact ⟨tabs, htabs, hu⟩

end Vfs
end TriOS
