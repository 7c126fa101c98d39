import TriOS.Fs.VfsTabs

/-!
# VfsOpen — opening, and the current directory

A call of `vfs_open` selects a missing operation in two cases: it has to create a file, and it has to truncate a
directory that is there. In all other cases the operations that it selects are there.
-/

namespace TriOS
namespace Vfs

open Hoare

/-- The lookup of a path finds that there is no such name, and the lookup of its parent succeeds. -/
def CreatesMissing (env : Env) (pwd : Option Node) (s : Sfs) (path : List UInt8) : Prop :=
  namedNode env pwd s path = none ∧ (env.startNode pwd (parsePath path).1).isSome ∧
    (env.startNode pwd (parsePath (parsePath path).2.2).1).isSome

/-- The flags pass the checks at the start of `vfs_open`. -/
def FlagsOk (flags : Nat) : Prop :=
  (accmode flags = oRdonly ∨ accmode flags = oWronly ∨ accmode flags = oRdwr) ∧
    ¬ (oTrunc flags = true ∧ accmode flags = oRdonly)

/-- The two cases: a file has to be created, or a directory would be opened for reading and truncated. -/
def OpenUnsupported (env : Env) (pwd : Option Node) (s : Sfs) (path : List UInt8) (flags : Nat) : Prop :=
  FlagsOk flags ∧ oCreat flags = true ∧ (CreatesMissing env pwd s path ∨
    (∃ n, namedNode env pwd s path = some n ∧ n.inOps = OpTable.sfsNodeDirops) ∧
      oExcl flags = false ∧ accmode flags = oRdonly ∧ oAppend flags = false)

variable {env : Env} {N p flags : Nat} {tabs : Nat → FilesStruct} {K : Node → Int} {s t : State} {n : Node}
  {path : List UInt8}

/-! ## Operations on a node -/

theorem triple_vopOpen : Triple IsHalt (vopOpen n flags) s fun r t => t = s ∧
    (n.inOps = OpTable.sfsNodeDirops → r = 0 → accmode flags = oRdonly ∧ oAppend flags = false) ∧
    (n.inOps = OpTable.devNodeOps → r = 0 → (oTrunc flags || oCreat flags) = false) := by
  unfold vopOpen
  cases n with
  | sfs ino dir =>
      apply (triple_vopOp (mem_ops_sfs (by decide))).bind
      rintro _ t rfl
      cases dir with
      | true =>
          refine ⟨rfl, fun _ hr => ?_, fun hdev _ => by cases hdev⟩
          by_cases hacc : accmode flags = oRdonly
          · refine ⟨hacc, ?_⟩
            by_contra happ
            rw [Bool.not_eq_false] at happ
            simp only [hacc, happ, if_true, ne_eq, not_true_eq_false, if_false] at hr
            exact absurd hr (by decide)
          · rw [if_pos hacc] at hr
            exact absurd hr (by decide)
      | false => exact ⟨rfl, (fun hdir _ => by cases hdir), fun hdev _ => by cases hdev⟩
  | dev d =>
      apply (triple_vopOp (mem_ops_dev (by decide))).bind
      rintro _ t rfl
      refine ⟨rfl, (fun hdir _ => by cases hdir), fun _ hr => ?_⟩
      by_contra hflags
      rw [Bool.not_eq_false, Bool.or_eq_true] at hflags
      rw [if_pos] at hr
      · exact absurd hr (by decide)
      · rcases hflags with h | h <;> simp [h]

theorem triple_vopGettype (hlive : n.Live s.sfs) :
    Triple IsHalt (vopGettype env n) s fun r t => t = s ∧
      (r = Except.ok FileType.dir → n.inOps = OpTable.sfsNodeDirops) := by
  unfold vopGettype
  cases n with
  | sfs ino dir =>
      apply (triple_vopOp (mem_ops_sfs (by decide))).bind
      rintro _ t rfl
      dsimp only
      rw [triple_bind, triple_onSfs, triple_derefSin]
      intro sin hsin
      refine triple_ite (fun hdir => ⟨rfl, fun _ => ?_⟩) fun _ => triple_ite (fun _ => ⟨rfl, fun hr => by cases hr⟩)
        fun _ => triple_ite (fun _ => ⟨rfl, fun hr => by cases hr⟩) fun _ => trivial
      obtain ⟨k, hkind, hk⟩ := hlive
      rw [Sfs.kinds_eq_some hsin] at hkind
      cases hkind
      rw [hk.1 hdir]
      rfl
  | dev d =>
      apply (triple_vopOp (mem_ops_dev (by decide))).bind
      rintro _ t rfl
      refine ⟨rfl, fun hr => ?_⟩
      split at hr <;> cases hr

theorem triple_vopFstat (hlive : n.Live s.sfs) :
    Triple IsHalt (vopFstat env n) s fun _ t => t = s := by
  unfold vopFstat
  have hop : Vop.vopFstat ∈ n.inOps.ops := by
    cases n with
    | sfs ino dir => exact mem_ops_sfs (by decide)
    | dev d => exact mem_ops_dev (by decide)
  apply (triple_vopOp hop).bind
  rintro _ t rfl
  apply (triple_vopGettype hlive).bind
  rintro (ret | mode) u ⟨rfl, -⟩
  · exact rfl
  · cases n with
    | sfs ino dir =>
        dsimp only
        rw [triple_bind, triple_onSfs, triple_derefSin]
        exact fun sin _ => rfl
    | dev d => exact rfl

/-! ## `vfs_open` -/

/-- What `vfs_open` returns: a node with a reference, a directory only for reading. -/
def Opened (env : Env) (N : Nat) (tabs : Nat → FilesStruct) (K : Node → Int) (flags : Nat)
    (r : Except Int Node) (t : State) : Prop :=
  Got env N tabs K r t ∧ ∀ n, r = Except.ok n → n.inOps = OpTable.sfsNodeDirops → accmode flags = oRdonly

theorem Acc.openNode (h : Acc env N tabs (give K n) s) (hK : ∀ m, 0 ≤ K m)
    (hdir : n.inOps = OpTable.sfsNodeDirops → accmode flags = oRdonly → oAppend flags = false →
      (oTrunc flags || oCreat flags) = false) :
    Triple IsHalt (openNode n flags) s fun r t => Opened env N tabs K flags r t := by
  unfold Vfs.openNode
  apply triple_vopOpen.bind
  rintro ret t ⟨rfl, hdirops, hdevops⟩
  refine triple_ite (fun _ => ?_) fun hret => ?_
  · apply (h.refDec hK).bind
    intro _ u hu
    exact ⟨hu, fun m hm => by cases hm⟩
  · have hret : ret = 0 := not_not.1 hret
    apply h.openInc.bind
    intro _ u hu
    have hopened : Opened env N tabs K flags (Except.ok n) u :=
      ⟨hu, fun m hm hops => by cases hm; exact (hdirops hops hret).1⟩
    refine triple_ite (fun htrunc => ?_) fun _ => hopened
    -- what is truncated is a regular file
    cases n with
    | dev d =>
        have hno := hdevops rfl hret
        rw [htrunc] at hno
        cases hno
    | sfs ino dir =>
        cases dir with
        | true =>
            obtain ⟨hacc, happ⟩ := hdirops rfl hret
            have hno := hdir rfl hacc happ
            rw [htrunc] at hno
            cases hno
        | false =>
            apply triple_vopTruncate.bind
            intro ret' v hv
            have hacc := hu.same hv
            refine triple_ite (fun _ => ?_) fun _ => ⟨hacc, hopened.2⟩
            apply hacc.openDec.bind
            intro _ w hw
            apply (hw.refDec hK).bind
            intro _ x hx
            exact ⟨hx, fun m hm => by cases hm⟩

/-- The path of a lookup is only cut when it names a device. -/
theorem parsePath_cut (h : ∀ devname, (parsePath path).1 ≠ Start.device devname) : (parsePath path).2.2 = path := by
  unfold parsePath at h ⊢
  dsimp only at h ⊢
  split
  · rfl
  · next c hc =>
      rw [hc] at h
      dsimp only at h ⊢
      split_ifs at h ⊢ with hcolon hfirst
      · exact absurd rfl (h _)
      · rfl
      · rfl
      · rfl

theorem Acc.vfsOpen (h : Acc env N tabs K s) (hdirs : PwdOk tabs) (hp : p < N)
    (hok : ¬ OpenUnsupported env (tabs p).pwd s.sfs path flags) :
    Triple IsHalt (vfsOpen env p path flags) s fun r t => Opened env N tabs K flags r t := by
  unfold Vfs.vfsOpen
  refine triple_ite (fun _ => ⟨h, fun m hm => by cases hm⟩) fun haccmode => ?_
  refine triple_ite (fun _ => ⟨h, fun m hm => by cases hm⟩) fun htrunc => ?_
  have hflags : FlagsOk flags := by
    refine ⟨?_, htrunc⟩
    by_contra hno
    apply haccmode
    exact ⟨fun h0 => hno (Or.inl h0), fun h1 => hno (Or.inr (Or.inl h1)), fun h2 => hno (Or.inr (Or.inr h2))⟩
  apply (h.vfsLookup hdirs hp).bind
  rintro (ret | n) t ⟨hgot, hnames, hdevice⟩
  · refine triple_ite (fun hcreat => ?_) fun _ => ⟨hgot, fun m hm => by cases hm⟩
    obtain ⟨rfl, hcreat⟩ := hcreat
    have hnone : namedNode env (tabs p).pwd s.sfs path = none := hnames rfl
    have hparent : env.startNode (tabs p).pwd (parsePath (parsePath path).2.2).1 = none := by
      by_contra hsome
      apply hok
      refine ⟨hflags, hcreat, Or.inl ⟨hnone, ?_, Option.isSome_iff_ne_none.2 hsome⟩⟩
      by_contra hstart
      have hstart : env.startNode (tabs p).pwd (parsePath path).1 = none := by simpa using hstart
      rw [parsePath_cut (hdevice rfl hstart)] at hsome
      exact hsome hstart
    have hparentLookup : Triple IsHalt (vfsLookupParent env p (parsePath path).2.2) t fun r u =>
        Acc env N tabs K u ∧ ∃ ret, r = Except.error ret := by
      unfold vfsLookupParent
      generalize hparsed : parsePath (parsePath path).2.2 = parsed
      rw [hparsed] at hparent
      obtain ⟨st, subpath, cut⟩ := parsed
      dsimp only at hparent ⊢
      apply (Acc.getDevice hgot hdirs hp).bind
      rintro (ret | dir) u ⟨hu, -, hstart⟩
      · exact ⟨hu, ret, rfl⟩
      · have hsome : env.startNode (tabs p).pwd st = some dir := hstart
        rw [hparent] at hsome
        cases hsome
    apply hparentLookup.bind
    rintro r u ⟨hu, ret, rfl⟩
    exact ⟨hu, fun m hm => by cases hm⟩
  · have hnamed : namedNode env (tabs p).pwd s.sfs path = some n := hnames
    refine triple_ite (fun _ => ?_) fun hexcl => ?_
    · -- the reference to the node is not given back
      exact ⟨Acc.le_give hgot h.nonneg, fun m hm => by cases hm⟩
    · apply Acc.openNode hgot h.nonneg
      intro hops hacc happ
      by_contra hbit
      have hcreat : oCreat flags = true := by
        rcases Bool.or_eq_true _ _ ▸ (Bool.not_eq_false _ ▸ hbit) with h1 | h1
        · exact absurd ⟨h1, hacc⟩ htrunc
        · exact h1
      apply hok
      refine ⟨hflags, hcreat, Or.inr ⟨⟨n, hnamed, hops⟩, ?_, hacc, happ⟩⟩
      by_contra hex
      exact hexcl ⟨by simpa using hex, hcreat⟩

end Vfs
end TriOS
