import TriOS.Fs.VfsRefs

/-!
# VfsPath — what a path names

The node that a path names is a function of the state: the entries of the directory that the lookup starts from,
and the type of the inode that is found there. A lookup that succeeds returns this node with one more reference,
and it fails with `E_NOENT` only if there is none.
-/

namespace TriOS
namespace Vfs

open Hoare

/-- The data of an inode: in memory, or else on the disk. -/
def Sfs.dinAt (s : Sfs) (ino : Nat) : Din :=
  match s.sin ino with
  | some sin => sin.din
  | none => decodeDin fun i => ((s.block ino).bytes 0 64).getD i 0

/-- The node of an inode. -/
def Sfs.node (s : Sfs) (ino : Nat) : Node := Node.sfs ino (decide ((s.dinAt ino).type = typeDir))

/-- Where a lookup starts. -/
def Env.startNode (env : Env) (pwd : Option Node) : Start → Option Node
  | Start.curdir => pwd
  | Start.device devname =>
      match env.vdevs.find? fun vdev => vdev.devname = devname with
      | none => none
      | some vdev =>
          if vdev.mounted = true then some rootNode
          else if vdev.mountable = false then some (Node.dev vdev.devnode)
          else none
  | Start.bootfs => env.bootfs
  | Start.currentFs => pwd.map fun _ => rootNode

/-- What a path names when it starts at a node. -/
def Sfs.namedAt (s : Sfs) (node : Node) (path : List UInt8) : Option Node :=
  if path = [] then some node
  else
    match node with
    | Node.dev _ => none
    | Node.sfs ino _ => (s.findName (s.dinAt ino) path 0 (s.dinAt ino).blocks).map s.node

/-- The node that a path names. -/
def namedNode (env : Env) (pwd : Option Node) (s : Sfs) (path : List UInt8) : Option Node :=
  (env.startNode pwd (parsePath path).1).bind fun node => s.namedAt node (parsePath path).2.1

/-- The entries of the tables between two system calls: a directory is not open for writing. -/
def FileOk (file : File) : Prop :=
  file.status = FdStatus.none ∨ file.status = FdStatus.opened ∧ file.openCount = 1 ∧
    ∃ n, file.node = some n ∧ (n.inOps = OpTable.sfsNodeDirops → file.writable = false)

/-- The current directories are directories. -/
def PwdOk (tabs : Nat → FilesStruct) : Prop := ∀ p n, (tabs p).pwd = some n → n.inOps = OpTable.sfsNodeDirops

/-- The tables between two system calls. -/
structure TabsOk (tabs : Nat → FilesStruct) : Prop where
  pwd : PwdOk tabs
  file : ∀ p fd, FileOk ((tabs p).fdArray fd)

variable {env : Env} {N p : Nat} {tabs : Nat → FilesStruct} {K : Node → Int} {s t : State} {n : Node}

theorem Quiet.node {s t : Sfs} (h : Quiet s t) (ino : Nat) : t.node ino = s.node ino := by
  obtain ⟨r, rfl⟩ := h
  rfl

theorem Quiet.namedNode {s t : Sfs} (h : Quiet s t) (pwd : Option Node) (path : List UInt8) :
    namedNode env pwd t path = namedNode env pwd s path := by
  obtain ⟨r, rfl⟩ := h
  rfl

theorem inOps_dir (h : n.inOps = OpTable.sfsNodeDirops) : ∃ ino, n = Node.sfs ino true := by
  cases n with
  | dev d => cases h
  | sfs ino dir =>
      cases dir with
      | true => exact ⟨ino, rfl⟩
      | false => cases h

/-! ## Loading an inode -/

/-- What a function that returns a node with a reference does. -/
def Got (env : Env) (N : Nat) (tabs : Nat → FilesStruct) (K : Node → Int) (r : Except Int Node) (t : State) :
    Prop :=
  match r with
  | Except.ok n => Acc env N tabs (give K n) t
  | Except.error _ => Acc env N tabs K t

/-- The node of an inode, or an error of the device or of the memory. -/
def Loaded (s : Sfs) (ino : Nat) (r : Except Int Node) : Prop :=
  match r with
  | Except.ok n => n = s.node ino
  | Except.error ret => ret = -eNoMem ∨ ret = -eInval

theorem give_comm (K : Node → Int) (m n : Node) : give (give K m) n = give (give K n) m := by
  funext k
  unfold give
  ring

/-- A node that is not in memory has no holder. -/
theorem Acc.ref_eq_zero {ino : Nat} (dir : Bool) (h : Acc env N tabs K s) (hnone : s.sfs.sin ino = none) :
    s.ref (Node.sfs ino dir) = 0 := by
  have hkind : s.sfs.kinds ino = none := by simp [Sfs.kinds, hnone]
  have hle : ¬ 0 < s.ref (Node.sfs ino dir) := by
    intro hpos
    obtain ⟨k, hk, -⟩ := h.live _ hpos
    rw [hkind] at hk
    cases hk
  have hbase := env.base_nonneg (Node.sfs ino dir)
  have hholders := holders_nonneg N tabs (Node.sfs ino dir)
  have hK := h.nonneg (Node.sfs ino dir)
  have href := h.ref (Node.sfs ino dir)
  omega

theorem Acc.le_give (h : Acc env N tabs (give K n) s) (hK : ∀ m, 0 ≤ K m) : Acc env N tabs K s := by
  refine ⟨h.boot, h.files, fun m => ?_, hK, h.live, h.links⟩
  have href := h.ref m
  have hle : K m ≤ give K n m := by
    unfold give
    split <;> omega
  omega

theorem Acc.createNode {ino : Nat} {din : Din} (h : Acc env N tabs K s) (hnone : s.sfs.sin ino = none)
    (hlinks : din.nlinks ≠ 0) :
    Triple IsHalt (createNode ino din) s fun r t => Got env N tabs K r t ∧ match r with
      | Except.ok n => n = Node.sfs ino (decide (din.type = typeDir))
      | Except.error ret => ret = -eNoMem := by
  unfold Vfs.createNode
  apply triple_kmallocOk.bind
  intro ok t ht
  have hacc := h.same ht.same
  have hnone' : t.sfs.sin ino = none := ht.quiet.sin_eq ▸ hnone
  refine triple_ite (fun _ => ?_) fun _ => ⟨hacc, rfl⟩
  rw [triple_bind, triple_codeAssert]
  intro _
  dsimp only
  rw [triple_bind, triple_onSfs]
  unfold setSin
  rw [triple_modify, triple_bind, triple_modify, triple_pure]
  have hkinds : ∀ m, Sfs.kinds { t.sfs with sin := Function.update t.sfs.sin ino (some ⟨din, false, 1⟩) } m =
      if m = ino then some (din.type, din.nlinks) else t.sfs.kinds m := by
    intro m
    by_cases hm : m = ino <;> simp [Sfs.kinds, hm]
  refine ⟨⟨hacc.boot, hacc.files, fun m => ?_, give_nonneg hacc.nonneg, fun m hm => ?_, fun m k hk => ?_⟩, rfl⟩
  · by_cases hm : m = Node.sfs ino (decide (din.type = typeDir))
    · have hzero := hacc.ref_eq_zero (decide (din.type = typeDir)) hnone'
      have href := hacc.ref (Node.sfs ino (decide (din.type = typeDir)))
      subst hm
      rw [give_self]
      simp only [Function.update_self]
      omega
    · simp only [Function.update_of_ne hm, give, if_neg hm, add_zero]
      exact hacc.ref m
  · by_cases hmn : m = Node.sfs ino (decide (din.type = typeDir))
    · subst hmn
      exact ⟨(din.type, din.nlinks), by rw [hkinds, if_pos rfl], decide_eq_true_iff.symm⟩
    · have hpos : 0 < t.ref m := by simpa [hmn] using hm
      cases m with
      | dev d => exact trivial
      | sfs ino' dir' =>
          obtain ⟨k, hk, hdir⟩ := hacc.live _ hpos
          refine ⟨k, ?_, hdir⟩
          rw [hkinds, if_neg, hk]
          rintro rfl
          exact absurd (hacc.ref_eq_zero dir' hnone') (ne_of_gt hpos)
  · rw [hkinds] at hk
    split at hk
    · cases hk
      exact hlinks
    · exact hacc.links m k hk

theorem Acc.lookupSfsNode {ino : Nat} (h : Acc env N tabs K s) :
    Triple IsHalt (lookupSfsNode ino) s fun r t => match r with
      | some n => Acc env N tabs (give K n) t ∧ n = s.sfs.node ino
      | none => t = s ∧ s.sfs.sin ino = none := by
  unfold Vfs.lookupSfsNode
  rw [triple_bind, triple_get]
  cases hsin : s.sfs.sin ino with
  | none => exact ⟨rfl, rfl⟩
  | some sin =>
      dsimp only
      have hnode : Node.sfs ino (decide (sin.din.type = typeDir)) = s.sfs.node ino := by
        unfold Sfs.node Sfs.dinAt
        rw [hsin]
      have hlive : (Node.sfs ino (decide (sin.din.type = typeDir))).Live s.sfs :=
        ⟨_, Sfs.kinds_eq_some hsin, decide_eq_true_iff.symm⟩
      apply (h.refInc hlive).bind
      rintro _ t ⟨hacc, hsfs⟩
      rw [triple_bind]
      have hset : Triple IsHalt (if s.ref (Node.sfs ino (decide (sin.din.type = typeDir))) + 1 = 1 then
          Vfs.onSfs (setSin ino { sin with reclaimCount := sin.reclaimCount + 1 }) else pure ()) t
          fun _ u => SameKinds t u := by
        refine triple_ite (fun _ => ?_) fun _ => SameKinds.refl
        have hkind : KindsAre t.sfs.kinds t.sfs := rfl
        have hsin' : t.sfs.sin ino = some sin := hsfs ▸ hsin
        have hstore := triple_setSin { sin with reclaimCount := sin.reclaimCount + 1 } hkind hsin' ⟨rfl, rfl⟩
        exact triple_onSfs.2 (hstore.mono fun _ sfs hk => ⟨sfs, rfl, hk⟩)
      apply hset.mono
      intro _ u hu
      exact ⟨hacc.same hu, hnode⟩

theorem Acc.sfsLoadInode {ino : Nat} (h : Acc env N tabs K s) :
    Triple IsHalt (sfsLoadInode ino) s fun r t => Got env N tabs K r t ∧ Loaded s.sfs ino r := by
  unfold Vfs.sfsLoadInode
  apply h.lookupSfsNode.bind
  rintro (_ | n) t ht
  · obtain ⟨rfl, hnone⟩ := ht
    dsimp only
    apply triple_kmallocOk.bind
    intro ok u hu
    refine triple_ite (fun _ => ?_) fun _ => ⟨h.same hu.same, Or.inl rfl⟩
    rw [triple_bind, triple_onSfs]
    apply quiet_blockInuse.mono
    rintro inuse sfs ⟨rfl, -⟩
    rw [triple_bind, triple_codeAssert]
    intro _
    rw [triple_bind, triple_onSfs]
    apply quiet_sfsRbuf.bind
    rintro ⟨ret, bytes⟩ sfs ⟨hsfs, hret⟩
    rw [triple_pure]
    dsimp only at hret ⊢
    have hcalm : Calm t { u with sfs := sfs } := by
      obtain ⟨sfs', rfl, hq⟩ := hu
      exact ⟨sfs, rfl, hq.trans hsfs⟩
    rcases hret with ⟨hret, hbytes⟩ | ⟨hret, -⟩
    · rw [if_neg (by simp [hret]), triple_bind, triple_codeAssert]
      intro hlinks
      have hnone' : sfs.sin ino = none := hcalm.quiet.sin_eq ▸ hnone
      apply ((h.same hcalm.same).createNode hnone' hlinks).mono
      rintro (ret | n) v ⟨hgot, hn⟩
      · exact ⟨hgot, Or.inl hn⟩
      · refine ⟨hgot, hn.trans ?_⟩
        unfold Sfs.node Sfs.dinAt
        rw [hnone]
        rw [hbytes, hu.quiet.block]
    · rw [if_pos]
      · exact ⟨h.same hcalm.same, Or.inr hret⟩
      · rw [hret]
        decide
  · exact ⟨ht.1, ht.2⟩

/-! ## Lookup in a directory -/

/-- What a lookup of a name may return when the name stands for `named`. -/
def Names (named : Option Node) (r : Except Int Node) : Prop :=
  match r with
  | Except.ok n => named = some n
  | Except.error ret => ret = -eNoent → named = none

theorem Acc.sfsLookupOnce {ino : Nat} {name : List UInt8} {sin : Sin} (h : Acc env N tabs K s)
    (hsin : s.sfs.sin ino = some sin) :
    Triple IsHalt (sfsLookupOnce ino name) s fun r t => Got env N tabs K r t ∧
      Names ((s.sfs.findName sin.din name 0 sin.din.blocks).map s.sfs.node) r := by
  unfold Vfs.sfsLookupOnce
  rw [triple_bind, triple_onSfs]
  apply (quiet_sfsDirentSearchNolock hsin).mono
  rintro (ret | found) sfs ⟨hq, hfound⟩
  · refine ⟨h.same (Calm.same ⟨sfs, rfl, hq⟩), fun hret => ?_⟩
    rcases hfound with ⟨-, hnone⟩ | hret' | hret'
    · rw [hnone]
      rfl
    · rw [hret'] at hret
      exact absurd hret (by decide)
    · rw [hret'] at hret
      exact absurd hret (by decide)
  · have hname : s.sfs.findName sin.din name 0 sin.din.blocks = some found := hfound
    apply Triple.mono (h.same (Calm.same ⟨sfs, rfl, hq⟩)).sfsLoadInode
    rintro (ret | n) t ⟨hgot, hload⟩
    · refine ⟨hgot, fun hret => ?_⟩
      rcases hload with hret' | hret'
      · rw [hret'] at hret
        exact absurd hret (by decide)
      · rw [hret'] at hret
        exact absurd hret (by decide)
    · refine ⟨hgot, ?_⟩
      have hn : n = sfs.node found := hload
      rw [hname, hn, hq.node]
      rfl

theorem Acc.sfsLookup {ino : Nat} {dir : Bool} {path : List UInt8} (h : Acc env N tabs K s)
    (hlive : (Node.sfs ino dir).Live s.sfs) :
    Triple IsHalt (sfsLookup ino dir path) s fun r t => Got env N tabs K r t ∧
      Names (s.sfs.namedAt (Node.sfs ino dir) path) r := by
  unfold Vfs.sfsLookup
  rw [triple_bind, triple_codeAssert]
  rintro ⟨hpath, -⟩
  apply (h.refInc hlive).bind
  rintro _ t ⟨hacc, hsfs⟩
  rw [triple_bind, triple_onSfs, triple_derefSin]
  intro sin hsin
  refine triple_ite (fun _ => ?_) fun _ => ?_
  · apply (hacc.refDec h.nonneg).bind
    intro _ u hu
    exact ⟨hu, fun hret => absurd hret (by decide)⟩
  · apply (hacc.sfsLookupOnce hsin).bind
    rintro r u ⟨hgot, hnames⟩
    have hnamed : s.sfs.namedAt (Node.sfs ino dir) path =
        (t.sfs.findName sin.din path 0 sin.din.blocks).map t.sfs.node := by
      have hdin : s.sfs.dinAt ino = sin.din := by
        rw [hsfs] at hsin
        simp [Sfs.dinAt, hsin]
      unfold Sfs.namedAt
      rw [if_neg hpath, hsfs]
      dsimp only
      rw [hdin]
    rw [hnamed]
    cases r with
    | error ret => exact (hgot.refDec h.nonneg).bind fun _ v hv => ⟨hv, hnames⟩
    | ok n =>
        have hgot' : Acc env N tabs (give (give K n) (Node.sfs ino dir)) u := give_comm K _ _ ▸ hgot
        exact (hgot'.refDec (give_nonneg h.nonneg)).bind fun _ v hv => ⟨hv, hnames⟩

theorem Acc.vopLookup {path : List UInt8} (h : Acc env N tabs K s) (hlive : n.Live s.sfs) (hpath : path ≠ [])
    (hop : n.inOps ≠ OpTable.sfsNodeFileops) :
    Triple IsHalt (vopLookup n path) s fun r t => Got env N tabs K r t ∧ Names (s.sfs.namedAt n path) r := by
  unfold Vfs.vopLookup
  cases n with
  | sfs ino dir =>
      cases dir with
      | false => exact absurd rfl hop
      | true =>
          have hmem : Vop.vopLookup ∈ (Node.sfs ino true).inOps.ops := by simp [Node.inOps, OpTable.ops]
          apply (triple_vopOp hmem).bind
          rintro _ t rfl
          exact h.sfsLookup hlive
  | dev d =>
      apply (triple_vopOp (mem_ops_dev (by decide))).bind
      rintro _ t rfl
      dsimp only
      rw [if_pos hpath]
      exact ⟨h, fun _ => by simp [Sfs.namedAt, hpath]⟩

/-! ## The start of a path -/

/-- A table of open files refers to its current directory. -/
theorem holders_pwd (hp : p < N) (hpwd : (tabs p).pwd = some n) : 0 < holders N tabs n := by
  have hterm : 0 < (tabs p).holders n := by
    unfold FilesStruct.holders
    rw [if_pos hpwd]
    have hsum : 0 ≤ ∑ fd ∈ Finset.range filesStructNentry, if ((tabs p).fdArray fd).Holds n then (1 : Int) else 0 := by
      apply Finset.sum_nonneg
      intro fd _
      split <;> decide
    omega
  apply Finset.sum_pos' (fun q _ => ?_) ⟨p, Finset.mem_range.2 hp, hterm⟩
  apply add_nonneg
  · split <;> decide
  · apply Finset.sum_nonneg
    intro fd _
    split <;> decide

theorem Acc.pwd_live (h : Acc env N tabs K s) (hp : p < N) (hpwd : (tabs p).pwd = some n) : n.Live s.sfs := by
  apply h.live
  have hbase := env.base_nonneg n
  have hholders := holders_pwd hp hpwd
  have hK := h.nonneg n
  have href := h.ref n
  omega

theorem Acc.vfsGetCurdir (h : Acc env N tabs K s) (hp : p < N) :
    Triple IsHalt (vfsGetCurdir p) s fun r t => Got env N tabs K r t ∧ t.sfs = s.sfs ∧ match r with
      | Except.ok n => (tabs p).pwd = some n
      | Except.error _ => (tabs p).pwd = none := by
  unfold Vfs.vfsGetCurdir
  rw [triple_bind, triple_get, h.files]
  cases hpwd : (tabs p).pwd with
  | none => exact ⟨h, rfl, rfl⟩
  | some n =>
      apply (h.refInc (h.pwd_live hp hpwd)).bind
      rintro _ t ⟨hacc, hsfs⟩
      exact ⟨hacc, hsfs, rfl⟩

theorem Acc.fsopGetRoot (h : Acc env N tabs K s) :
    Triple IsHalt fsopGetRoot s fun n t => n = rootNode ∧ Acc env N tabs (give K rootNode) t ∧ t.sfs = s.sfs := by
  obtain ⟨hpos, k, hkind, hdir⟩ := h.root_live
  have hsin : ∃ sin, s.sfs.sin sfsBlknRoot = some sin ∧ (sin.din.type, sin.din.nlinks) = k := by
    unfold Sfs.kinds at hkind
    simpa using hkind
  obtain ⟨sin, hsin, rfl⟩ := hsin
  have hnode : Node.sfs sfsBlknRoot (decide (sin.din.type = typeDir)) = rootNode := by
    unfold rootNode
    rw [decide_eq_true (hdir.2 rfl)]
  unfold Vfs.fsopGetRoot Vfs.sfsLoadInode Vfs.lookupSfsNode
  rw [triple_bind, triple_bind, triple_bind, triple_get, hsin]
  dsimp only
  rw [hnode]
  apply (h.refInc h.root_live.2).bind
  rintro _ t ⟨hacc, hsfs⟩
  -- the root is referred to already, so that it is not being reclaimed
  rw [if_neg (by omega), triple_bind]
  exact ⟨rfl, hacc, hsfs⟩

/-- What `get_device` may return. -/
def Starts (start : Option Node) (st : Start) (r : Except Int Node) : Prop :=
  match r with
  | Except.ok n => start = some n
  | Except.error ret => start = none ∧ (ret = -eNoent → ∀ devname, st ≠ Start.device devname)

theorem Acc.getDevice {st : Start} (h : Acc env N tabs K s) (hdirs : PwdOk tabs) (hp : p < N) :
    Triple IsHalt (getDevice env p st) s fun r t => Got env N tabs K r t ∧ t.sfs = s.sfs ∧
      Starts (env.startNode (tabs p).pwd st) st r := by
  cases st with
  | curdir =>
      apply (h.vfsGetCurdir hp).mono
      rintro (ret | n) t ⟨hgot, hsfs, hpwd⟩
      · exact ⟨hgot, hsfs, hpwd, fun _ _ hst => by cases hst⟩
      · exact ⟨hgot, hsfs, hpwd⟩
  | device devname =>
      unfold Vfs.getDevice vfsGetRoot Env.startNode
      dsimp only
      cases hdev : env.vdevs.find? fun vdev => vdev.devname = devname with
      | none => exact ⟨h, rfl, rfl, fun hret => absurd hret (by decide)⟩
      | some vdev =>
          dsimp only
          refine triple_ite (fun hm => ?_) fun hm => triple_ite (fun hm' => ?_) fun hm' => ?_
          · apply h.fsopGetRoot.bind
            rintro _ t ⟨rfl, hacc, hsfs⟩
            rw [if_pos hm]
            exact ⟨hacc, hsfs, rfl⟩
          · have hlive : (Node.dev vdev.devnode).Live s.sfs := trivial
            apply (h.refInc hlive).bind
            rintro _ t ⟨hacc, hsfs⟩
            rw [if_neg hm, if_pos hm']
            exact ⟨hacc, hsfs, rfl⟩
          · rw [if_neg hm, if_neg hm']
            exact ⟨h, rfl, rfl, fun hret => absurd hret (by decide)⟩
  | bootfs =>
      unfold Vfs.getDevice vfsGetBootfs Env.startNode
      rw [h.boot]
      apply (h.refInc h.root_live.2).bind
      rintro _ t ⟨hacc, hsfs⟩
      exact ⟨hacc, hsfs, rfl⟩
  | currentFs =>
      unfold Vfs.getDevice Env.startNode
      apply (h.vfsGetCurdir hp).bind
      rintro (ret | n) t ⟨hgot, hsfs, hpwd⟩
      · refine ⟨hgot, hsfs, ?_, fun _ _ hst => by cases hst⟩
        change (tabs p).pwd = none at hpwd
        rw [hpwd]
        rfl
      · obtain ⟨ino, rfl⟩ := inOps_dir (hdirs p n hpwd)
        dsimp only
        have hacc : Acc env N tabs (give K (Node.sfs ino true)) t := hgot
        apply hacc.fsopGetRoot.bind
        rintro _ u ⟨rfl, hacc', hsfs'⟩
        rw [give_comm] at hacc'
        have hheld : 0 < env.base (Node.sfs ino true) + holders N tabs (Node.sfs ino true) +
            give K rootNode (Node.sfs ino true) := by
          have hbase := env.base_nonneg (Node.sfs ino true)
          have hholders := holders_pwd hp hpwd
          have hK := give_nonneg h.nonneg (K := K) (n := rootNode) (Node.sfs ino true)
          omega
        apply (hacc'.refDec_held (give_nonneg h.nonneg) hheld).bind
        rintro _ v ⟨hv, hsfs''⟩
        refine ⟨hv, hsfs''.trans (hsfs'.trans hsfs), ?_⟩
        change Option.map (fun _ => rootNode) (tabs p).pwd = some rootNode
        rw [hpwd]
        rfl

/-- A lookup does not start at a regular file. -/
theorem startNode_ops {st : Start} (h : Acc env N tabs K s) (hdirs : PwdOk tabs)
    (hn : env.startNode (tabs p).pwd st = some n) : n.inOps ≠ OpTable.sfsNodeFileops := by
  cases st with
  | curdir =>
      rw [hdirs p n hn]
      decide
  | device devname =>
      unfold Env.startNode at hn
      dsimp only at hn
      cases hdev : env.vdevs.find? fun vdev => vdev.devname = devname with
      | none => simp [hdev] at hn
      | some vdev =>
          rw [hdev] at hn
          dsimp only at hn
          split_ifs at hn
          · cases hn
            decide
          · cases hn
            exact fun heq => by cases heq
  | bootfs =>
      unfold Env.startNode at hn
      rw [h.boot] at hn
      cases hn
      decide
  | currentFs =>
      unfold Env.startNode at hn
      cases hpwd : (tabs p).pwd with
      | none => simp [hpwd] at hn
      | some m =>
          rw [hpwd] at hn
          cases hn
          exact fun heq => by cases heq

/-! ## Paths -/

theorem Acc.vfsLookup {path : List UInt8} (h : Acc env N tabs K s) (hdirs : PwdOk tabs) (hp : p < N) :
    Triple IsHalt (vfsLookup env p path) s fun r t => Got env N tabs K r t ∧
      Names (namedNode env (tabs p).pwd s.sfs path) r ∧
      (r = Except.error (-eNoent) → env.startNode (tabs p).pwd (parsePath path).1 = none →
        ∀ devname, (parsePath path).1 ≠ Start.device devname) := by
  unfold Vfs.vfsLookup namedNode
  generalize parsePath path = parsed
  obtain ⟨st, subpath, cut⟩ := parsed
  dsimp only
  apply (h.getDevice hdirs hp).bind
  rintro (ret | n) t ⟨hgot, hsfs, hstart⟩
  · refine ⟨hgot, fun _ => ?_, fun hret _ => ?_⟩
    · rw [hstart.1]
      rfl
    · cases hret
      exact hstart.2 rfl
  · have hn : env.startNode (tabs p).pwd st = some n := hstart
    have hacc : Acc env N tabs (give K n) t := hgot
    rw [hn, Option.bind_some]
    refine triple_ite (fun hpath => ?_) fun hpath => ?_
    · apply (hacc.vopLookup (hacc.live_of_give h.nonneg) hpath (startNode_ops h hdirs hn)).bind
      rintro (ret | found) u ⟨hgot', hnames⟩
      · apply (Acc.refDec hgot' h.nonneg).bind
        intro _ v hv
        exact ⟨hv, hsfs ▸ hnames, fun _ hnone => by cases hnone⟩
      · have hgot'' : Acc env N tabs (give (give K found) n) u := give_comm K n found ▸ hgot'
        apply (hgot''.refDec (give_nonneg h.nonneg)).bind
        intro _ v hv
        exact ⟨hv, hsfs ▸ hnames, fun hr _ => by cases hr⟩
    · refine ⟨hacc, ?_, fun hr _ => by cases hr⟩
      unfold Sfs.namedAt
      rw [if_pos (not_not.1 hpath)]
      rfl

end Vfs
end TriOS
