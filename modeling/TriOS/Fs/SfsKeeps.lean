import TriOS.Fs.SfsInode

/-!
# SfsKeeps — what no code on the data of an inode changes

Reading, writing and truncation change neither which inodes are in memory nor their types and link counts.
-/

namespace TriOS
namespace Vfs

open Hoare

/-- The type and the link count of the inodes in memory. -/
def Sfs.kinds (s : Sfs) (n : Nat) : Option (Nat × Nat) :=
  (s.sin n).map fun sin => (sin.din.type, sin.din.nlinks)

/-- The inodes in memory, their types and their link counts are `κ`. -/
def KindsAre (κ : Nat → Option (Nat × Nat)) (s : Sfs) : Prop := s.kinds = κ

variable {κ : Nat → Option (Nat × Nat)} {s : Sfs} {n : Nat} {sin sin' : Sin}

theorem Sfs.kinds_eq_some (h : s.sin n = some sin) : s.kinds n = some (sin.din.type, sin.din.nlinks) := by
  simp [Sfs.kinds, h]

theorem Sfs.kinds_update (h : s.sin n = some sin)
    (hkind : sin'.din.type = sin.din.type ∧ sin'.din.nlinks = sin.din.nlinks) :
    Sfs.kinds { s with sin := Function.update s.sin n (some sin') } = s.kinds := by
  funext m
  by_cases hm : m = n
  · subst hm
    simp [Sfs.kinds, h, hkind]
  · simp [Sfs.kinds, hm]

/-! ## The primitives -/

theorem triple_sfsAssert {p : Prop} [Decidable p] {Q : Unit → Sfs → Prop} :
    Triple AnyError (SfsM.assert p) s Q ↔ (p → Q () s) := by
  unfold SfsM.assert
  by_cases hp : p <;> simp [hp, AnyError]

theorem keeps_sfsAssert {I : Sfs → Prop} {p : Prop} [Decidable p] : Keeps AnyError I (SfsM.assert p) :=
  fun _ hs => triple_sfsAssert.2 fun _ => hs

theorem keeps_ofOutcome {α : Type} {I : Sfs → Prop} (x : Outcome α) : Keeps AnyError I (SfsM.ofOutcome x) := by
  cases x with
  | done a => exact Keeps.pure a
  | panic => exact Keeps.throw trivial
  | wrap => exact Keeps.throw trivial
  | fuel => exact Keeps.throw trivial

theorem triple_derefSin {Q : Sin → Sfs → Prop} :
    Triple AnyError (derefSin n) s Q ↔ ∀ sin, s.sin n = some sin → Q sin s := by
  unfold derefSin
  rw [triple_bind, triple_get]
  cases h : s.sin n with
  | none => simp [AnyError]
  | some sin => simp

theorem keeps_derefSin {I : Sfs → Prop} : Keeps AnyError I (derefSin n) :=
  fun _ hs => triple_derefSin.2 fun _ _ => hs

/-- Replace a state by one with the same inodes in memory. -/
theorem keeps_set {t : Sfs → Sfs} (ht : ∀ s, (t s).sin = s.sin) :
    Keeps AnyError (KindsAre κ) (do let s ← get; set (t s) : SfsM PUnit) := by
  intro s hs
  rw [triple_bind, triple_get, triple_set]
  unfold KindsAre Sfs.kinds at hs ⊢
  rw [ht]
  exact hs

/-- Store an inode in memory with the kind that it has. -/
theorem triple_setSin (sin' : Sin) (hs : KindsAre κ s) (h : s.sin n = some sin)
    (hkind : sin'.din.type = sin.din.type ∧ sin'.din.nlinks = sin.din.nlinks) :
    Triple AnyError (setSin n sin') s fun _ t => KindsAre κ t :=
  (Sfs.kinds_update h hkind).trans hs

theorem keeps_modifyDin {f : Din → Din} {dirty : Bool}
    (hf : ∀ din, (f din).type = din.type ∧ (f din).nlinks = din.nlinks) :
    Keeps AnyError (KindsAre κ) (modifyDin n f dirty) := by
  intro s hs
  unfold modifyDin
  rw [triple_bind, triple_derefSin]
  intro sin hsin
  exact triple_setSin _ hs hsin (hf sin.din)

theorem keeps_fails : Keeps AnyError (KindsAre κ) fails := by
  intro s hs
  exact hs

/-! ## Blocks -/

theorem keeps_sfsRwblockNolock {buf : Block} {blkno : Nat} {write check : Bool} :
    Keeps AnyError (KindsAre κ) (sfsRwblockNolock buf blkno write check) := by
  unfold sfsRwblockNolock dopIo
  apply Keeps.bind Keeps.get
  intro s
  apply Keeps.bind keeps_sfsAssert
  intro _
  apply Keeps.bind keeps_fails
  intro failed
  apply Keeps.ite (Keeps.pure _)
  intro s hs
  rw [triple_bind, triple_get]
  cases write with
  | true => exact hs
  | false => exact hs

theorem keeps_sfsRwblock {write : Bool} {nblks blkno : Nat} {buf : List UInt8} :
    Keeps AnyError (KindsAre κ) (sfsRwblock write nblks blkno buf) := by
  induction nblks generalizing blkno buf with
  | zero => exact Keeps.pure _
  | succ nblks ih =>
      unfold sfsRwblock
      apply Keeps.bind keeps_sfsRwblockNolock
      rintro ⟨ret, block⟩
      apply Keeps.ite (Keeps.pure _)
      apply Keeps.bind ih
      rintro ⟨ret, rest⟩
      exact Keeps.pure _

theorem keeps_sfsRbuf {len blkno offset : Nat} : Keeps AnyError (KindsAre κ) (sfsRbuf len blkno offset) := by
  unfold sfsRbuf
  apply Keeps.bind keeps_sfsAssert
  intro _
  apply Keeps.bind keeps_sfsRwblockNolock
  rintro ⟨ret, block⟩
  exact Keeps.pure _

theorem keeps_sfsWbuf {data : List UInt8} {blkno offset : Nat} :
    Keeps AnyError (KindsAre κ) (sfsWbuf data blkno offset) := by
  unfold sfsWbuf
  apply Keeps.bind keeps_sfsAssert
  intro _
  apply Keeps.bind keeps_sfsRwblockNolock
  rintro ⟨ret, block⟩
  apply Keeps.ite (Keeps.pure _)
  apply Keeps.bind keeps_sfsRwblockNolock
  rintro ⟨ret, block⟩
  exact Keeps.pure _

theorem keeps_blockInuse {ino : Nat} {I : Sfs → Prop} : Keeps AnyError I (blockInuse ino) := by
  unfold blockInuse
  apply Keeps.bind Keeps.get
  intro s
  apply Keeps.ite
  · apply Keeps.bind (keeps_ofOutcome _)
    intro free
    exact Keeps.pure _
  · exact Keeps.throw trivial

theorem keeps_sfsBlockAlloc : Keeps AnyError (KindsAre κ) sfsBlockAlloc := by
  intro s hs
  unfold sfsBlockAlloc
  rw [triple_bind, triple_get]
  refine (keeps_ofOutcome _ s hs).bind ?_
  rintro (_ | ⟨ino, freemap⟩) t ht
  · exact ht
  · dsimp only
    rw [triple_bind, triple_sfsAssert]
    intro _
    rw [triple_bind, triple_set]
    -- the state that is set has the inodes of `s`
    have hset : KindsAre κ { s with freemap := freemap, unusedBlocks := s.unusedBlocks - 1, superDirty := true } :=
      hs
    refine (keeps_blockInuse _ hset).bind fun inuse u hu => ?_
    rw [triple_bind, triple_sfsAssert]
    intro _
    unfold sfsClearBlock
    refine Triple.bind (Triple.bind (keeps_sfsRwblockNolock u hu) fun _ v hv => ?_) fun ret v hv => hv
    exact hv

theorem keeps_blockFree {ino : Nat} : Keeps AnyError (KindsAre κ) (blockFree ino) := by
  unfold blockFree
  apply Keeps.bind keeps_blockInuse
  intro inuse
  apply Keeps.bind keeps_sfsAssert
  intro _ s hs
  rw [triple_bind, triple_get]
  refine (keeps_ofOutcome _ s hs).bind fun freemap t ht => ?_
  exact hs

/-! ## The block map -/

theorem keeps_bmapCleanup {entp ent : Nat} {ret : Int} :
    Keeps AnyError (KindsAre κ) (bmapCleanup entp ent ret) := by
  unfold bmapCleanup
  apply Keeps.bind (Keeps.ite keeps_blockFree (Keeps.pure _))
  intro _
  exact Keeps.pure _

theorem keeps_bmapNewBlock {entp ent index : Nat} : Keeps AnyError (KindsAre κ) (bmapNewBlock entp ent index) := by
  unfold bmapNewBlock
  apply Keeps.bind keeps_sfsBlockAlloc
  rintro ⟨ret, ino⟩
  apply Keeps.ite keeps_bmapCleanup
  apply Keeps.bind keeps_sfsWbuf
  intro ret
  apply Keeps.ite
  · apply Keeps.bind keeps_blockFree
    intro _
    exact keeps_bmapCleanup
  · exact Keeps.pure _

theorem keeps_sfsBmapGetSubNolock {entp index : Nat} {create : Bool} :
    Keeps AnyError (KindsAre κ) (sfsBmapGetSubNolock entp index create) := by
  unfold sfsBmapGetSubNolock
  apply Keeps.bind keeps_sfsAssert
  intro _
  apply Keeps.ite
  · apply Keeps.bind keeps_sfsRbuf
    rintro ⟨ret, bytes⟩
    apply Keeps.ite (Keeps.pure _)
    exact Keeps.ite (Keeps.pure _) keeps_bmapNewBlock
  · apply Keeps.ite (Keeps.pure _)
    apply Keeps.bind keeps_sfsBlockAlloc
    rintro ⟨ret, ent⟩
    exact Keeps.ite (Keeps.pure _) keeps_bmapNewBlock

theorem keeps_bmapOut {ino : Nat} : Keeps AnyError (KindsAre κ) (bmapOut ino) := by
  unfold bmapOut
  apply Keeps.ite (Keeps.pure _)
  apply Keeps.bind keeps_blockInuse
  intro inuse
  apply Keeps.bind keeps_sfsAssert
  intro _
  exact Keeps.pure _

theorem keeps_sfsBmapGetNolock {index : Nat} {create : Bool} :
    Keeps AnyError (KindsAre κ) (sfsBmapGetNolock n index create) := by
  unfold sfsBmapGetNolock
  apply Keeps.bind keeps_derefSin
  intro sin
  apply Keeps.ite
  · apply Keeps.ite
    · apply Keeps.bind keeps_sfsBlockAlloc
      rintro ⟨ret, ino⟩
      apply Keeps.ite (Keeps.pure _)
      refine Keeps.bind (keeps_modifyDin ?_) fun _ => ?_
      · exact fun din => ⟨rfl, rfl⟩
      · exact keeps_bmapOut
    · exact keeps_bmapOut
  · apply Keeps.ite
    · apply Keeps.bind keeps_sfsBmapGetSubNolock
      rintro ⟨ret, ent, ino⟩
      apply Keeps.ite (Keeps.pure _)
      apply Keeps.ite
      · apply Keeps.bind keeps_sfsAssert
        intro _
        refine Keeps.bind (keeps_modifyDin ?_) fun _ => ?_
        · exact fun din => ⟨rfl, rfl⟩
        · exact keeps_bmapOut
      · exact keeps_bmapOut
    · exact Keeps.throw trivial

theorem keeps_sfsBmapFreeNolock {index : Nat} : Keeps AnyError (KindsAre κ) (sfsBmapFreeNolock n index) := by
  unfold sfsBmapFreeNolock
  apply Keeps.bind keeps_derefSin
  intro sin
  apply Keeps.ite
  · apply Keeps.ite
    · apply Keeps.bind keeps_blockFree
      intro _
      refine Keeps.bind (keeps_modifyDin ?_) fun _ => ?_
      · exact fun din => ⟨rfl, rfl⟩
      · exact Keeps.pure _
    · exact Keeps.pure _
  · apply Keeps.ite
    · refine Keeps.ite ?_ (Keeps.pure _)
      unfold sfsBmapFreeSubNolock
      apply Keeps.bind keeps_blockInuse
      intro inuse
      apply Keeps.bind keeps_sfsAssert
      intro _
      apply Keeps.bind keeps_sfsRbuf
      rintro ⟨ret, bytes⟩
      apply Keeps.ite (Keeps.pure _)
      refine Keeps.ite ?_ (Keeps.pure _)
      apply Keeps.bind keeps_sfsWbuf
      intro ret
      apply Keeps.ite (Keeps.pure _)
      apply Keeps.bind keeps_blockFree
      intro _
      exact Keeps.pure _
    · exact Keeps.pure _

theorem keeps_sfsBmapLoadNolock {index : Nat} : Keeps AnyError (KindsAre κ) (sfsBmapLoadNolock n index) := by
  unfold sfsBmapLoadNolock
  apply Keeps.bind keeps_derefSin
  intro sin
  apply Keeps.bind keeps_sfsAssert
  intro _
  apply Keeps.bind keeps_sfsBmapGetNolock
  rintro ⟨ret, ino⟩
  apply Keeps.ite (Keeps.pure _)
  apply Keeps.bind keeps_blockInuse
  intro inuse
  apply Keeps.bind keeps_sfsAssert
  intro _
  refine Keeps.bind (Keeps.ite (keeps_modifyDin ?_) (Keeps.pure _)) fun _ => ?_
  · exact fun din => ⟨rfl, rfl⟩
  · exact Keeps.pure _

theorem keeps_sfsBmapTruncateNolock : Keeps AnyError (KindsAre κ) (sfsBmapTruncateNolock n) := by
  unfold sfsBmapTruncateNolock
  apply Keeps.bind keeps_derefSin
  intro sin
  apply Keeps.bind keeps_sfsAssert
  intro _
  apply Keeps.bind keeps_sfsBmapFreeNolock
  intro ret
  apply Keeps.ite (Keeps.pure _)
  refine Keeps.bind (keeps_modifyDin ?_) fun _ => ?_
  · exact fun din => ⟨rfl, rfl⟩
  · exact Keeps.pure _

/-! ## Files -/

theorem keeps_ioPart {buf : List UInt8} {blkno blkoff size : Nat} {write : Bool} :
    Keeps AnyError (KindsAre κ) (ioPart n buf blkno blkoff size write) := by
  unfold ioPart
  apply Keeps.bind keeps_sfsBmapLoadNolock
  rintro ⟨ret, ino⟩
  apply Keeps.ite (Keeps.pure _)
  apply Keeps.ite
  · apply Keeps.bind keeps_sfsWbuf
    intro ret
    exact Keeps.pure _
  · exact keeps_sfsRbuf

theorem keeps_ioBlocks {buf : List UInt8} {blkno nblks : Nat} {write : Bool} :
    Keeps AnyError (KindsAre κ) (ioBlocks n buf blkno nblks write) := by
  unfold ioBlocks
  apply Keeps.bind keeps_sfsBmapLoadNolock
  rintro ⟨ret, ino⟩
  apply Keeps.ite (Keeps.pure _)
  apply Keeps.bind keeps_sfsRwblock
  rintro ⟨ret, data⟩
  exact Keeps.pure _

theorem keeps_ioOut {offset : Nat} {ret : Int} {data : List UInt8} :
    Keeps AnyError (KindsAre κ) (ioOut n offset ret data) := by
  unfold ioOut
  apply Keeps.bind keeps_derefSin
  intro sin
  refine Keeps.bind (Keeps.ite (keeps_modifyDin ?_) (Keeps.pure _)) fun _ => ?_
  · exact fun din => ⟨rfl, rfl⟩
  · exact Keeps.pure _

theorem keeps_ioParts {buf : List UInt8} {offset endpos : Nat} {write : Bool} :
    Keeps AnyError (KindsAre κ) (ioParts n buf offset endpos write) := by
  unfold ioParts
  apply Keeps.bind (Keeps.ite keeps_ioPart (Keeps.pure _))
  rintro ⟨ret, first⟩
  apply Keeps.ite keeps_ioOut
  apply Keeps.bind (Keeps.ite keeps_ioBlocks (Keeps.pure _))
  rintro ⟨ret, whole⟩
  apply Keeps.ite keeps_ioOut
  apply Keeps.bind (Keeps.ite keeps_ioPart (Keeps.pure _))
  rintro ⟨ret, last⟩
  exact keeps_ioOut

theorem keeps_sfsIoNolock {buf : List UInt8} {offset : Int} {len : Nat} {write : Bool} :
    Keeps AnyError (KindsAre κ) (sfsIoNolock n buf offset len write) := by
  unfold sfsIoNolock
  apply Keeps.bind keeps_derefSin
  intro sin
  apply Keeps.bind keeps_sfsAssert
  intro _
  apply Keeps.ite (Keeps.pure _)
  apply Keeps.ite (Keeps.pure _)
  apply Keeps.ite keeps_ioParts
  exact Keeps.ite (Keeps.pure _) keeps_ioParts

theorem keeps_growLoop {rounds nblks : Nat} : Keeps AnyError (KindsAre κ) (growLoop n rounds nblks) := by
  induction rounds generalizing nblks with
  | zero => exact Keeps.pure _
  | succ rounds ih =>
      unfold growLoop
      apply Keeps.bind keeps_sfsBmapLoadNolock
      rintro ⟨ret, ino⟩
      exact Keeps.ite (Keeps.pure _) ih

theorem keeps_shrinkLoop {rounds : Nat} : Keeps AnyError (KindsAre κ) (shrinkLoop n rounds) := by
  induction rounds with
  | zero => exact Keeps.pure _
  | succ rounds ih =>
      unfold shrinkLoop
      apply Keeps.bind keeps_sfsBmapTruncateNolock
      intro ret
      exact Keeps.ite (Keeps.pure _) ih

theorem keeps_sfsTruncfile {len : Int} : Keeps AnyError (KindsAre κ) (sfsTruncfile n len) := by
  unfold sfsTruncfile
  apply Keeps.ite (Keeps.pure _)
  apply Keeps.bind keeps_derefSin
  intro sin
  apply Keeps.ite
  · apply Keeps.bind keeps_sfsAssert
    intro _
    exact Keeps.pure _
  · apply Keeps.bind (Keeps.ite keeps_growLoop keeps_shrinkLoop)
    intro ret
    apply Keeps.ite (Keeps.pure _)
    apply Keeps.bind keeps_derefSin
    intro sin
    apply Keeps.bind keeps_sfsAssert
    intro _
    refine Keeps.bind (keeps_modifyDin ?_) fun _ => ?_
    · exact fun din => ⟨rfl, rfl⟩
    · exact Keeps.pure _

theorem keeps_sfsFsync : Keeps AnyError (KindsAre κ) (sfsFsync n) := by
  intro s hs
  unfold sfsFsync
  rw [triple_bind, triple_derefSin]
  intro sin hsin
  refine triple_ite (fun _ => ?_) fun _ => hs
  apply Triple.bind (triple_setSin { sin with dirty := false } hs hsin ⟨rfl, rfl⟩)
  intro _ t ht
  apply Triple.bind (keeps_sfsWbuf t ht)
  intro ret u hu
  rw [triple_bind]
  refine triple_ite (fun _ => ?_) fun _ => hu
  rw [triple_bind, triple_derefSin]
  intro sin' hsin'
  exact triple_setSin { sin' with dirty := true } hu hsin' ⟨rfl, rfl⟩

/-! ## Directories and devices -/

theorem keeps_sfsDirentReadNolock {slot : Nat} : Keeps AnyError (KindsAre κ) (sfsDirentReadNolock n slot) := by
  unfold sfsDirentReadNolock
  apply Keeps.bind keeps_derefSin
  intro sin
  apply Keeps.bind keeps_sfsAssert
  intro _
  apply Keeps.bind keeps_sfsBmapLoadNolock
  rintro ⟨ret, ino⟩
  apply Keeps.ite (Keeps.pure _)
  apply Keeps.bind keeps_blockInuse
  intro inuse
  apply Keeps.bind keeps_sfsAssert
  intro _
  apply Keeps.bind keeps_sfsRbuf
  rintro ⟨ret, bytes⟩
  exact Keeps.ite (Keeps.pure _) (Keeps.pure _)

theorem keeps_findinoLoop {ino rounds i : Nat} : Keeps AnyError (KindsAre κ) (findinoLoop n ino rounds i) := by
  induction rounds generalizing i with
  | zero => exact Keeps.pure _
  | succ rounds ih =>
      unfold findinoLoop
      apply Keeps.bind keeps_sfsDirentReadNolock
      rintro ⟨ret, found, name⟩
      apply Keeps.ite (Keeps.pure _)
      exact Keeps.ite (Keeps.pure _) ih

theorem keeps_sfsDirentFindinoNolock {ino : Nat} : Keeps AnyError (KindsAre κ) (sfsDirentFindinoNolock n ino) := by
  unfold sfsDirentFindinoNolock
  apply Keeps.bind keeps_derefSin
  intro sin
  exact keeps_findinoLoop

theorem keeps_getdirentryLoop {rounds i slot : Nat} :
    Keeps AnyError (KindsAre κ) (getdirentryLoop n rounds i slot) := by
  induction rounds generalizing i slot with
  | zero => exact Keeps.pure _
  | succ rounds ih =>
      unfold getdirentryLoop
      apply Keeps.bind keeps_sfsDirentReadNolock
      rintro ⟨ret, ino, name⟩
      apply Keeps.ite (Keeps.pure _)
      apply Keeps.ite ih
      exact Keeps.ite (Keeps.pure _) ih

theorem keeps_direntryAt {offset : Int} : Keeps AnyError (KindsAre κ) (direntryAt n offset) := by
  unfold direntryAt
  apply Keeps.bind keeps_fails
  intro failed
  apply Keeps.ite (Keeps.pure _)
  apply Keeps.ite (Keeps.pure _)
  apply Keeps.bind keeps_derefSin
  intro sin
  exact Keeps.ite (Keeps.pure _) keeps_getdirentryLoop

theorem keeps_searchLoop {name : List UInt8} {rounds i : Nat} :
    Keeps AnyError (KindsAre κ) (searchLoop n name rounds i) := by
  induction rounds generalizing i with
  | zero => exact Keeps.pure _
  | succ rounds ih =>
      unfold searchLoop
      apply Keeps.bind keeps_sfsDirentReadNolock
      rintro ⟨ret, ino, entry⟩
      apply Keeps.ite (Keeps.pure _)
      apply Keeps.ite ih
      exact Keeps.ite (Keeps.pure _) ih

theorem keeps_sfsDirentSearchNolock {name : List UInt8} :
    Keeps AnyError (KindsAre κ) (sfsDirentSearchNolock n name) := by
  unfold sfsDirentSearchNolock
  apply Keeps.bind keeps_sfsAssert
  intro _
  apply Keeps.bind keeps_fails
  intro failed
  apply Keeps.ite (Keeps.pure _)
  apply Keeps.bind keeps_derefSin
  intro sin
  exact keeps_searchLoop

end Vfs
end TriOS
