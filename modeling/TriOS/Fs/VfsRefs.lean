import TriOS.Fs.File
import TriOS.Fs.SfsRead

/-!
# VfsRefs — who refers to an inode

The reference count of a node is at least the number of its holders: the list of devices, the boot file system,
the tables of open files with their current directories, and the code that is running. The last are written `K`
here; every function of the layers is described by what it does to them. The count can be higher, as `vfs_open`
does not give the node back when it refuses an existing file. What is held stays in memory with the type that it
has, so that a device is never reclaimed and the root stays a directory.
-/

namespace TriOS
namespace Vfs

open Hoare

/-- The machine stops, but not because an operation is missing. -/
def IsHalt : Stop → Prop
  | Stop.noOp _ _ => False
  | Stop.halt _ => True

/-- The root of the file system -/
def rootNode : Node := Node.sfs sfsBlknRoot true

/-- An entry of a table refers to a node. -/
def File.Holds (file : File) (n : Node) : Prop := file.status = FdStatus.opened ∧ file.node = some n

instance (file : File) (n : Node) : Decidable (file.Holds n) := inferInstanceAs (Decidable (_ ∧ _))

/-- How often a table refers to a node. -/
def FilesStruct.holders (table : FilesStruct) (n : Node) : Int :=
  (if table.pwd = some n then 1 else 0) +
    ∑ fd ∈ Finset.range filesStructNentry, if (table.fdArray fd).Holds n then 1 else 0

/-- How often the first `N` tables refer to a node. -/
def holders (N : Nat) (tabs : Nat → FilesStruct) (n : Node) : Int :=
  ∑ p ∈ Finset.range N, (tabs p).holders n

/-- The references that are always there. -/
def Env.base (env : Env) (n : Node) : Int :=
  (match n with
    | Node.dev _ => 1
    | Node.sfs _ _ => 0) + if env.bootfs = some n then 1 else 0

/-- A node of the file system is in memory, with the type that its table is for. -/
def Node.Live (sfs : Sfs) : Node → Prop
  | Node.sfs ino dir => ∃ k, sfs.kinds ino = some k ∧ (k.1 = typeDir ↔ dir = true)
  | Node.dev _ => True

/-- The state with the tables `tabs` and the references `K` of the code that is running. -/
structure Acc (env : Env) (N : Nat) (tabs : Nat → FilesStruct) (K : Node → Int) (s : State) : Prop where
  boot : env.bootfs = some rootNode
  files : s.files = tabs
  ref : ∀ n, env.base n + holders N tabs n + K n ≤ s.ref n
  nonneg : ∀ n, 0 ≤ K n
  live : ∀ n, 0 < s.ref n → n.Live s.sfs
  links : ∀ ino k, s.sfs.kinds ino = some k → k.2 ≠ 0

/-- One more reference. -/
def give (K : Node → Int) (n : Node) : Node → Int := fun m => K m + if m = n then 1 else 0

variable {env : Env} {N : Nat} {tabs : Nat → FilesStruct} {K : Node → Int} {s t : State} {n : Node}

theorem holders_nonneg (N : Nat) (tabs : Nat → FilesStruct) (n : Node) : 0 ≤ holders N tabs n := by
  apply Finset.sum_nonneg
  intro p _
  apply add_nonneg
  · split <;> decide
  · apply Finset.sum_nonneg
    intro fd _
    split <;> decide

theorem Env.base_nonneg (env : Env) (n : Node) : 0 ≤ env.base n := by
  unfold Env.base
  cases n <;> dsimp only <;> split <;> decide

/-- The list of devices refers to its devices. -/
theorem Env.base_dev (env : Env) (d : Device) : 1 ≤ env.base (Node.dev d) := by
  unfold Env.base
  dsimp only
  split <;> decide

/-- What both tables of the file system have. -/
theorem mem_ops_sfs {ino : Nat} {dir : Bool} {sym : Vop}
    (h : sym ∈ OpTable.sfsNodeDirops.ops ∧ sym ∈ OpTable.sfsNodeFileops.ops) :
    sym ∈ (Node.sfs ino dir).inOps.ops := by
  cases dir with
  | true => exact h.1
  | false => exact h.2

theorem mem_ops_dev {d : Device} {sym : Vop} (h : sym ∈ OpTable.devNodeOps.ops) :
    sym ∈ (Node.dev d).inOps.ops := h

theorem give_self : give K n n = K n + 1 := by simp [give]

theorem give_nonneg (h : ∀ m, 0 ≤ K m) (m : Node) : 0 ≤ give K n m := by
  apply add_nonneg (h m)
  split <;> decide

theorem Acc.live_of_give (h : Acc env N tabs (give K n) s) (hK : ∀ m, 0 ≤ K m) : n.Live s.sfs := by
  apply h.live
  have href := h.ref n
  have hbase := env.base_nonneg n
  have hholders := holders_nonneg N tabs n
  have hn := hK n
  rw [give_self] at href
  omega

theorem Acc.root_live (h : Acc env N tabs K s) : 0 < s.ref rootNode ∧ rootNode.Live s.sfs := by
  have hpos : 0 < s.ref rootNode := by
    have hbase : env.base rootNode = 1 := by
      unfold Env.base
      rw [if_pos h.boot]
      rfl
    have hholders := holders_nonneg N tabs rootNode
    have hK := h.nonneg rootNode
    have href := h.ref rootNode
    omega
  exact ⟨hpos, h.live _ hpos⟩

/-- Only the file system has changed, and no kind of an inode in memory. -/
def SameKinds (s t : State) : Prop := ∃ sfs, t = { s with sfs := sfs } ∧ sfs.kinds = s.sfs.kinds

theorem SameKinds.refl : SameKinds s s := ⟨s.sfs, rfl, rfl⟩

theorem Node.Live.of_kinds {sfs sfs' : Sfs} (h : n.Live sfs) (hk : sfs'.kinds = sfs.kinds) : n.Live sfs' := by
  cases n with
  | dev d => exact trivial
  | sfs ino dir =>
      obtain ⟨k, hkind, hdir⟩ := h
      exact ⟨k, hk ▸ hkind, hdir⟩

theorem Acc.same (h : Acc env N tabs K s) (hst : SameKinds s t) : Acc env N tabs K t := by
  obtain ⟨sfs, rfl, hk⟩ := hst
  exact ⟨h.boot, h.files, h.ref, h.nonneg, fun n hn => (h.live n hn).of_kinds hk,
    fun ino k hkind => h.links ino k (hk ▸ hkind)⟩

/-! ## Primitives -/

theorem triple_onSfs {α : Type} {f : SfsM α} {Q : α → State → Prop} :
    Triple IsHalt (onSfs f) s Q ↔ Triple AnyError f s.sfs fun a sfs => Q a { s with sfs := sfs } :=
  triple_zoom

theorem same_onSfs {α : Type} {f : SfsM α} (hf : Keeps AnyError (KindsAre s.sfs.kinds) f) :
    Triple IsHalt (onSfs f) s fun _ t => SameKinds s t :=
  triple_onSfs.2 ((hf s.sfs rfl).mono fun _ sfs hk => ⟨sfs, rfl, hk⟩)

theorem Acc.onSfs {α : Type} {f : SfsM α} (h : Acc env N tabs K s)
    (hf : Keeps AnyError (KindsAre s.sfs.kinds) f) :
    Triple IsHalt (onSfs f) s fun _ t => Acc env N tabs K t :=
  (same_onSfs hf).mono fun _ _ hst => h.same hst

theorem triple_codeAssert {p : Prop} [Decidable p] {Q : Unit → State → Prop} :
    Triple IsHalt (Code.assert p) s Q ↔ (p → Q () s) := by
  unfold Code.assert
  by_cases hp : p <;> simp [hp, IsHalt]

theorem triple_checkNode : Triple IsHalt (checkNode n) s fun _ t => t = s := by
  unfold checkNode
  rw [triple_bind, triple_get, triple_bind, triple_codeAssert]
  intro _
  rw [triple_codeAssert]
  exact fun _ => rfl

/-- An operation that is in the table is selected. -/
theorem triple_vopOp {sym : Vop} (h : sym ∈ n.inOps.ops) :
    Triple IsHalt (vopOp n sym) s fun _ t => t = s := by
  unfold vopOp
  rw [if_pos h]
  exact triple_checkNode

/-- Only requests have been made. -/
def Calm (s t : State) : Prop := ∃ sfs, t = { s with sfs := sfs } ∧ Quiet s.sfs sfs

theorem Calm.same (h : Calm s t) : SameKinds s t := by
  obtain ⟨sfs, rfl, r, rfl⟩ := h
  exact ⟨_, rfl, rfl⟩

theorem Calm.quiet (h : Calm s t) : Quiet s.sfs t.sfs := by
  obtain ⟨sfs, rfl, hq⟩ := h
  exact hq

theorem calm_onSfs {α : Type} {f : SfsM α} {Q : α → Sfs → Prop}
    (hf : Triple AnyError f s.sfs fun a sfs => Quiet s.sfs sfs ∧ Q a sfs) :
    Triple IsHalt (onSfs f) s fun a t => Calm s t ∧ Q a t.sfs :=
  triple_onSfs.2 (hf.mono fun _ sfs h => ⟨⟨sfs, rfl, h.1⟩, h.2⟩)

theorem calm_fails : Triple IsHalt (onSfs fails) s fun _ t => Calm s t :=
  triple_onSfs.2 (quiet_fails.mono fun _ sfs h => ⟨sfs, rfl, h⟩)

theorem triple_kmallocOk : Triple IsHalt kmallocOk s fun _ t => Calm s t := by
  unfold kmallocOk
  apply calm_fails.bind
  intro failed t ht
  exact ht

/-! ## The operations that every node of the file system has -/

theorem triple_vopFsync {ino : Nat} {dir : Bool} :
    Triple IsHalt (vopFsync (Node.sfs ino dir)) s fun _ t => SameKinds s t := by
  unfold vopFsync
  apply (triple_vopOp (mem_ops_sfs (by decide))).bind
  rintro _ t rfl
  exact same_onSfs keeps_sfsFsync

theorem triple_vopTruncate {ino : Nat} {len : Int} :
    Triple IsHalt (vopTruncate (Node.sfs ino false) len) s fun _ t => SameKinds s t := by
  unfold vopTruncate
  have hop : Vop.vopTruncate ∈ OpTable.sfsNodeFileops.ops := by decide
  apply (triple_vopOp hop).bind
  rintro _ t rfl
  exact same_onSfs keeps_sfsTruncfile

theorem triple_vopClose : Triple IsHalt (vopClose n) s fun _ t => SameKinds s t := by
  unfold vopClose
  cases n with
  | sfs ino dir =>
      apply (triple_vopOp (mem_ops_sfs (by decide))).bind
      rintro _ t rfl
      exact triple_vopFsync
  | dev d =>
      apply (triple_vopOp (mem_ops_dev (by decide))).bind
      rintro _ t rfl
      exact SameKinds.refl

theorem Acc.openInc (h : Acc env N tabs K s) : Triple IsHalt (openInc n) s fun _ t => Acc env N tabs K t :=
  ⟨h.boot, h.files, h.ref, h.nonneg, h.live, h.links⟩

theorem Acc.openDec (h : Acc env N tabs K s) : Triple IsHalt (openDec n) s fun _ t => Acc env N tabs K t := by
  unfold Vfs.openDec
  rw [triple_bind, triple_get, triple_bind, triple_codeAssert]
  intro _
  rw [triple_bind, triple_set]
  have hset : Acc env N tabs K { s with opens := Function.update s.opens n (s.opens n - 1) } :=
    ⟨h.boot, h.files, h.ref, h.nonneg, h.live, h.links⟩
  refine triple_ite (fun _ => ?_) fun _ => hset
  apply triple_vopClose.bind
  intro _ t ht
  exact hset.same ht

/-! ## References -/

theorem Acc.refInc (h : Acc env N tabs K s) (hn : n.Live s.sfs) :
    Triple IsHalt (refInc n) s fun _ t => Acc env N tabs (give K n) t ∧ t.sfs = s.sfs := by
  refine ⟨⟨h.boot, h.files, fun m => ?_, give_nonneg h.nonneg, fun m hm => ?_, h.links⟩, rfl⟩
  · have href := h.ref m
    unfold give
    by_cases hm : m = n
    · subst hm
      simp only [Function.update_self, if_true]
      omega
    · simp only [Function.update_of_ne hm, if_neg hm, add_zero]
      exact href
  · by_cases hmn : m = n
    · exact hmn ▸ hn
    · exact h.live m (by simpa [hmn] using hm)

/-- The inode leaves the memory. -/
theorem Acc.reclaimEnd {ino : Nat} {dir : Bool} (h : Acc env N tabs K s) (hlive : (Node.sfs ino dir).Live s.sfs) :
    Triple IsHalt (reclaimEnd ino dir) s fun _ t => Acc env N tabs K t := by
  unfold Vfs.reclaimEnd
  have hfree : Keeps AnyError (KindsAre s.sfs.kinds) (freeUnlinked ino) := by
    unfold freeUnlinked
    apply Keeps.bind keeps_derefSin
    intro sin
    refine Keeps.ite ?_ (Keeps.pure _)
    apply Keeps.bind keeps_blockFree
    intro _
    exact Keeps.ite keeps_blockFree (Keeps.pure _)
  apply (same_onSfs hfree).bind
  rintro _ t ⟨sfs, rfl, hk⟩
  rw [triple_bind, triple_get, triple_bind, triple_codeAssert]
  intro hzero
  rw [triple_bind, triple_codeAssert]
  intro _
  rw [triple_bind, triple_onSfs, triple_modify, triple_pure]
  have hkinds : ∀ m, Sfs.kinds { sfs with sin := Function.update sfs.sin ino none } m =
      if m = ino then none else s.sfs.kinds m := by
    intro m
    rw [← hk]
    by_cases hm : m = ino <;> simp [Sfs.kinds, hm]
  obtain ⟨k, hkind, hdir⟩ := hlive
  refine ⟨h.boot, h.files, h.ref, h.nonneg, fun m hm => ?_, fun m k' hk' => ?_⟩
  · cases m with
    | dev d => exact trivial
    | sfs ino' dir' =>
        obtain ⟨k', hkind', hdir'⟩ := h.live _ hm
        refine ⟨k', ?_, hdir'⟩
        rw [hkinds, if_neg, hkind']
        -- another node of the same inode would have the same table
        rintro rfl
        rw [hkind] at hkind'
        cases hkind'
        have hsame : dir' = dir := Bool.eq_iff_iff.2 (hdir'.symm.trans hdir)
        subst hsame
        exact absurd hzero (ne_of_gt hm)
  · rw [hkinds] at hk'
    split at hk'
    · exact absurd hk' (by simp)
    · exact h.links m k' hk'

theorem Acc.sfsReclaim {ino : Nat} {dir : Bool} (h : Acc env N tabs K s) (hlive : (Node.sfs ino dir).Live s.sfs) :
    Triple IsHalt (sfsReclaim ino dir) s fun _ t => Acc env N tabs K t := by
  unfold Vfs.sfsReclaim
  rw [triple_bind, triple_onSfs, triple_derefSin]
  intro sin hsin
  rw [triple_bind, triple_codeAssert]
  intro _
  rw [triple_bind, triple_onSfs]
  have hkind : KindsAre s.sfs.kinds s.sfs := rfl
  have hset := triple_setSin { sin with reclaimCount := sin.reclaimCount - 1 } hkind hsin ⟨rfl, rfl⟩
  apply hset.mono
  intro _ sfs hk
  have hacc : Acc env N tabs K { s with sfs := sfs } := h.same ⟨sfs, rfl, hk⟩
  have hlinks : sin.din.nlinks ≠ 0 := h.links ino _ (Sfs.kinds_eq_some hsin)
  rw [triple_bind, triple_get]
  refine triple_ite (fun _ => hacc) fun _ => ?_
  rw [if_neg hlinks, triple_bind, triple_pure, if_neg (by simp)]
  rw [triple_bind, triple_onSfs, triple_derefSin]
  intro sin' _
  rw [triple_bind]
  have hsync : Triple IsHalt (if sin'.dirty = true then vopFsync (Node.sfs ino dir) else pure 0)
      { s with sfs := sfs } fun _ t => SameKinds { s with sfs := sfs } t :=
    triple_ite (fun _ => triple_vopFsync) fun _ => SameKinds.refl
  apply hsync.mono
  intro ret t ht
  refine triple_ite (fun _ => hacc.same ht) fun _ => ?_
  apply (hacc.same ht).reclaimEnd
  obtain ⟨sfs', rfl, hk'⟩ := ht
  exact hlive.of_kinds (hk'.trans hk)

/-- A reference is given back. -/
theorem Acc.refDec (h : Acc env N tabs (give K n) s) (hK : ∀ m, 0 ≤ K m) :
    Triple IsHalt (refDec n) s fun _ t => Acc env N tabs K t := by
  have hlive := h.live_of_give hK
  unfold Vfs.refDec
  rw [triple_bind, triple_get, triple_bind, triple_codeAssert]
  intro _
  rw [triple_bind, triple_set]
  have hset : Acc env N tabs K { s with ref := Function.update s.ref n (s.ref n - 1) } := by
    refine ⟨h.boot, h.files, fun m => ?_, hK, fun m hm => ?_, h.links⟩
    · have href := h.ref m
      unfold give at href
      by_cases hm : m = n
      · subst hm
        simp only [Function.update_self, if_true] at href ⊢
        omega
      · simp only [Function.update_of_ne hm, if_neg hm, add_zero] at href ⊢
        exact href
    · apply h.live
      by_cases hmn : m = n
      · subst hmn
        have hm' : 0 < s.ref m - 1 := by simpa using hm
        omega
      · simpa [hmn] using hm
  refine triple_ite (fun hzero => ?_) fun _ => hset
  rw [triple_bind]
  cases n with
  | dev d =>
      -- the list of devices still refers to it
      exfalso
      have href := h.ref (Node.dev d)
      have hbase := env.base_dev d
      have hholders := holders_nonneg N tabs (Node.dev d)
      have hd := hK (Node.dev d)
      rw [give_self] at href
      omega
  | sfs ino dir =>
      unfold vopReclaim
      rw [triple_bind]
      apply (triple_vopOp (mem_ops_sfs (by decide))).mono
      rintro _ t rfl
      exact (hset.sfsReclaim hlive).mono fun _ t ht => ht

/-- A reference is given back, and others are left: the inode stays in memory. -/
theorem Acc.refDec_held (h : Acc env N tabs (give K n) s) (hK : ∀ m, 0 ≤ K m)
    (hheld : 0 < env.base n + holders N tabs n + K n) :
    Triple IsHalt (Vfs.refDec n) s fun _ t => Acc env N tabs K t ∧ t.sfs = s.sfs := by
  have hkeep : Triple IsHalt (Vfs.refDec n) s fun _ t => t.sfs = s.sfs := by
    unfold Vfs.refDec
    rw [triple_bind, triple_get, triple_bind, triple_codeAssert]
    intro _
    rw [triple_bind, triple_set]
    refine triple_ite (fun hzero => ?_) fun _ => rfl
    have href := h.ref n
    rw [give_self] at href
    omega
  exact (h.refDec hK).and hkeep

end Vfs
end TriOS
