import TriOS.Fs.Reclaim
import TriOS.Library.Transition

/-!
# ReclaimRuns — an inode in memory is reclaimed once

`ReclaimInv` counts: `reclaim_count` of an inode is the number of reclaims that are still to come, and
one more while the inode is referenced. Every step keeps it, also a reclaim that fails.
-/

namespace TriOS

open Outcome Transition

variable {fs fs' : SfsFs} {s t : SfsState} {node node' : Inode} {a : Nat} {ino : UInt32} {op : SfsOp}
  {e : Option FsEvent}

/-! ## The lists -/

/-- Two file systems have the same inodes in memory and in their lists. -/
structure SfsFs.SameInodes (fs' fs : SfsFs) : Prop where
  inode : fs'.inode = fs.inode
  inodeList : fs'.inodeList = fs.inodeList
  hashList : fs'.hashList = fs.hashList

theorem SfsFs.SameInodes.refl (fs : SfsFs) : fs.SameInodes fs := ⟨rfl, rfl, rfl⟩

/-- The lists hold exactly the inodes in memory, each once and in the list of its number, and no two
inodes have one number. -/
structure SfsFs.Tables (fs : SfsFs) : Prop where
  listNodup : fs.inodeList.Nodup
  mem_list : ∀ a, a ∈ fs.inodeList ↔ fs.inode a ≠ none
  hashNodup : ∀ i, (fs.hashList i).Nodup
  mem_hash : ∀ i a, a ∈ fs.hashList i ↔ ∃ node, fs.inode a = some node ∧ sinHashfn node.ino = i
  unique : ∀ a b node node', fs.inode a = some node → fs.inode b = some node' →
    node.ino = node'.ino → a = b

theorem SfsFs.Tables.congr (h : fs.Tables) (hsame : fs'.SameInodes fs) : fs'.Tables := by
  obtain ⟨hinode, hlist, hhash⟩ := hsame
  refine ⟨?_, ?_, ?_, ?_, ?_⟩
  · rw [hlist]; exact h.listNodup
  · rw [hlist, hinode]; exact h.mem_list
  · rw [hhash]; exact h.hashNodup
  · rw [hhash, hinode]; exact h.mem_hash
  · rw [hinode]; exact h.unique

@[simp] theorem SfsFs.store_inode_self : (fs.store a node).inode a = some node :=
  Function.update_self _ _ _

theorem SfsFs.store_inode_of_ne {b : Nat} (h : b ≠ a) : (fs.store a node).inode b = fs.inode b :=
  Function.update_of_ne h _ _

theorem SfsFs.deref_eq_done (h : fs.inode a = some node) : fs.deref a = done node := by
  simp [SfsFs.deref, h]

/-- What is in memory after a write to an inode that is in memory. -/
theorem SfsFs.store_inode_cases {b : Nat} {nb : Inode} (h : (fs.store a node').inode b = some nb) :
    b = a ∧ nb = node' ∨ b ≠ a ∧ fs.inode b = some nb := by
  by_cases hb : b = a
  · subst hb
    left
    exact ⟨rfl, by simpa [eq_comm] using h⟩
  · right
    exact ⟨hb, by rwa [SfsFs.store_inode_of_ne hb] at h⟩

/-- A write that keeps the number of an inode keeps the lists right. -/
theorem SfsFs.Tables.store (h : fs.Tables) (hnode : fs.inode a = some node)
    (hino : node'.ino = node.ino) : (fs.store a node').Tables := by
  -- an inode after the write stands for the inode at the same address before it
  have hback : ∀ b nb, (fs.store a node').inode b = some nb →
      ∃ nb', fs.inode b = some nb' ∧ nb'.ino = nb.ino := by
    intro b nb hb
    rcases SfsFs.store_inode_cases hb with ⟨rfl, rfl⟩ | ⟨-, hb⟩
    · exact ⟨node, hnode, hino.symm⟩
    · exact ⟨nb, hb, rfl⟩
  have hforth : ∀ b nb, fs.inode b = some nb →
      ∃ nb', (fs.store a node').inode b = some nb' ∧ nb'.ino = nb.ino := by
    intro b nb hb
    by_cases hba : b = a
    · subst hba
      exact ⟨node', SfsFs.store_inode_self, hino.trans (by rw [hnode] at hb; cases hb; rfl)⟩
    · exact ⟨nb, by rw [SfsFs.store_inode_of_ne hba, hb], rfl⟩
  refine ⟨h.listNodup, fun b => (h.mem_list b).trans ?_, h.hashNodup,
    fun i b => (h.mem_hash i b).trans ?_, ?_⟩
  · simp only [Option.ne_none_iff_exists']
    constructor
    · rintro ⟨nb, hb⟩
      exact (hforth b nb hb).imp fun _ h => h.1
    · rintro ⟨nb, hb⟩
      exact (hback b nb hb).imp fun _ h => h.1
  · constructor
    · rintro ⟨nb, hb, hi⟩
      obtain ⟨nb', hb', hino'⟩ := hforth b nb hb
      exact ⟨nb', hb', by rw [hino', hi]⟩
    · rintro ⟨nb, hb, hi⟩
      obtain ⟨nb', hb', hino'⟩ := hback b nb hb
      exact ⟨nb', hb', by rw [hino', hi]⟩
  · intro b c nb nc hb hc heq
    obtain ⟨nb', hb', hinob⟩ := hback b nb hb
    obtain ⟨nc', hc', hinoc⟩ := hback c nc hc
    exact h.unique b c nb' nc' hb' hc' (by rw [hinob, hinoc, heq])

/-- A new inode with a number that no other has is linked. -/
theorem SfsFs.Tables.create (h : fs.Tables) (hfree : fs.inode a = none)
    (hnew : ∀ b nb, fs.inode b = some nb → nb.ino ≠ node.ino) :
    (sfsSetLinks (fs.store a node) a node.ino).Tables := by
  have hlist : a ∉ fs.inodeList := fun hc => (h.mem_list a).1 hc hfree
  have hhash : ∀ i, a ∉ fs.hashList i := by
    intro i hc
    obtain ⟨na, hna, -⟩ := (h.mem_hash i a).1 hc
    simp [hfree] at hna
  refine ⟨List.nodup_cons.2 ⟨hlist, h.listNodup⟩, ?_, ?_, ?_, ?_⟩
  · intro b
    change b ∈ a :: fs.inodeList ↔ (fs.store a node).inode b ≠ none
    by_cases hb : b = a
    · subst hb
      simp
    · rw [SfsFs.store_inode_of_ne hb, List.mem_cons, h.mem_list]
      simp [hb]
  · intro i
    change (Function.update fs.hashList _ (a :: fs.hashList _) i).Nodup
    by_cases hi : i = sinHashfn node.ino
    · subst hi
      rw [Function.update_self]
      exact List.nodup_cons.2 ⟨hhash _, h.hashNodup _⟩
    · rw [Function.update_of_ne hi]
      exact h.hashNodup i
  · intro i b
    change b ∈ Function.update fs.hashList _ (a :: fs.hashList _) i ↔
      ∃ nb, (fs.store a node).inode b = some nb ∧ _
    by_cases hb : b = a
    · subst hb
      by_cases hi : i = sinHashfn node.ino
      · subst hi
        simp
      · rw [Function.update_of_ne hi]
        simp [hhash i, Ne.symm hi]
    · rw [SfsFs.store_inode_of_ne hb, ← h.mem_hash]
      by_cases hi : i = sinHashfn node.ino
      · subst hi
        simp [hb]
      · rw [Function.update_of_ne hi]
  · intro b c nb nc hb hc heq
    rcases SfsFs.store_inode_cases hb with ⟨rfl, rfl⟩ | ⟨-, hb'⟩
    · rcases SfsFs.store_inode_cases hc with ⟨rfl, rfl⟩ | ⟨-, hc'⟩
      · rfl
      · exact absurd heq.symm (hnew c nc hc')
    · rcases SfsFs.store_inode_cases hc with ⟨rfl, rfl⟩ | ⟨-, hc'⟩
      · exact absurd heq (hnew b nb hb')
      · exact h.unique b c nb nc hb' hc' heq

/-- What is left of the lists when an inode is unlinked and its memory is freed. -/
theorem SfsFs.Tables.free (h : fs.Tables)
    (hinode : fs'.inode = Function.update fs.inode a none)
    (hlist : fs'.inodeList = fs.inodeList.erase a)
    (hhash : fs'.hashList = fun i => (fs.hashList i).erase a) : fs'.Tables := by
  have hcases : ∀ b nb, fs'.inode b = some nb → b ≠ a ∧ fs.inode b = some nb := by
    intro b nb hb
    rw [hinode] at hb
    by_cases hba : b = a
    · subst hba
      simp at hb
    · exact ⟨hba, by rwa [Function.update_of_ne hba] at hb⟩
  refine ⟨?_, ?_, ?_, ?_, ?_⟩
  · rw [hlist]
    exact h.listNodup.erase a
  · intro b
    rw [hlist, h.listNodup.mem_erase_iff, h.mem_list, hinode]
    by_cases hb : b = a
    · subst hb
      simp
    · simp [hb]
  · intro i
    rw [hhash]
    exact (h.hashNodup i).erase a
  · intro i b
    rw [hhash]
    change b ∈ (fs.hashList i).erase a ↔ _
    rw [(h.hashNodup i).mem_erase_iff, h.mem_hash, hinode]
    by_cases hb : b = a
    · subst hb
      simp
    · simp [hb]
  · intro b c nb nc hb hc heq
    exact h.unique b c nb nc (hcases b nb hb).2 (hcases c nc hc).2 heq

/-! ## The invariant -/

/-- A reclaim of the inode holds `fs_sem` and waits. -/
def SfsState.Reclaiming (s : SfsState) (a : Nat) : Prop :=
  s.holder = some (FsHolder.truncating a) ∨ s.holder = some (FsHolder.syncing a)

/-- The reclaims to come are counted by `reclaim_count`. An inode that is being reclaimed has neither
references nor other reclaims; while an inode is read there is none with its number. -/
structure ReclaimInv (s : SfsState) : Prop where
  tables : s.fs.Tables
  ref : ∀ a node, s.fs.inode a = some node → 0 ≤ node.refCount
  count : ∀ a node, s.fs.inode a = some node →
    node.reclaimCount = s.pending a + if 0 < node.refCount then 1 else 0
  pending : ∀ a, 0 < s.pending a → s.fs.inode a ≠ none
  reading : ∀ ino, s.holder = some (FsHolder.reading ino) →
    ∀ a node, s.fs.inode a = some node → node.ino ≠ ino
  reclaiming : ∀ a, s.Reclaiming a →
    ∃ node, s.fs.inode a = some node ∧ node.refCount = 0 ∧ node.reclaimCount = 0

theorem SfsFs.Mounted.inv (h : fs.Mounted) : ReclaimInv fs.start := by
  have hnone : ∀ a node, fs.inode a ≠ some node := fun a node => by simp [h.inode a]
  refine ⟨⟨?_, ?_, ?_, ?_, ?_⟩, ?_, ?_, ?_, ?_, ?_⟩
  · simp [SfsFs.start, h.inodeList]
  · simp [SfsFs.start, h.inodeList, h.inode]
  · simp [SfsFs.start, h.hashList]
  · simp [SfsFs.start, h.hashList, h.inode]
  · exact fun a b node node' ha => absurd ha (hnone a node)
  · exact fun a node ha => absurd ha (hnone a node)
  · exact fun a node ha => absurd ha (hnone a node)
  · exact fun a ha => absurd ha (by simp [SfsState.pending, SfsFs.start])
  · exact fun ino ha => absurd ha (by simp [SfsFs.start])
  · exact fun a ha => absurd ha (by simp [SfsState.Reclaiming, SfsFs.start])

/-- The same inodes are in memory. -/
def SfsState.Keeps (s t : SfsState) : Prop :=
  ∀ b, t.fs.inode b = none ↔ s.fs.inode b = none

theorem SfsState.Keeps.of_same (h : t.fs.SameInodes s.fs) : s.Keeps t := by
  intro b
  rw [h.inode]

theorem SfsState.Keeps.of_store (hnode : s.fs.inode a = some node)
    (h : t.fs.SameInodes (s.fs.store a node')) : s.Keeps t := by
  intro b
  rw [h.inode]
  by_cases hb : b = a
  · subst hb
    simp [hnode]
  · rw [SfsFs.store_inode_of_ne hb]

/-- A step that leaves the inodes alone. -/
theorem ReclaimInv.frame (h : ReclaimInv s) (hfs : t.fs.SameInodes s.fs)
    (hpending : ∀ b, t.pending b = s.pending b)
    (hreading : ∀ ino, t.holder = some (FsHolder.reading ino) →
      ∀ b nb, s.fs.inode b = some nb → nb.ino ≠ ino)
    (hreclaiming : ∀ b, t.Reclaiming b → s.Reclaiming b) : ReclaimInv t := by
  refine ⟨h.tables.congr hfs, ?_, ?_, ?_, ?_, ?_⟩
  · rw [hfs.inode]
    exact h.ref
  · intro b nb hb
    rw [hfs.inode] at hb
    rw [hpending]
    exact h.count b nb hb
  · intro b hb
    rw [hpending] at hb
    rw [hfs.inode]
    exact h.pending b hb
  · rw [hfs.inode]
    exact hreading
  · intro b hb
    rw [hfs.inode]
    exact h.reclaiming b (hreclaiming b hb)

/-- A step that writes to one inode. -/
theorem ReclaimInv.update (h : ReclaimInv s) (hnode : s.fs.inode a = some node)
    (hfs : t.fs.SameInodes (s.fs.store a node')) (hino : node'.ino = node.ino)
    (href : 0 ≤ node'.refCount)
    (hcount : node'.reclaimCount = t.pending a + if 0 < node'.refCount then 1 else 0)
    (hpending : ∀ b, b ≠ a → t.pending b = s.pending b)
    (hreading : ∀ ino, t.holder = some (FsHolder.reading ino) → s.holder = some (FsHolder.reading ino))
    (hself : t.Reclaiming a → node'.refCount = 0 ∧ node'.reclaimCount = 0)
    (hreclaiming : ∀ b, b ≠ a → t.Reclaiming b → s.Reclaiming b) : ReclaimInv t := by
  have hcases : ∀ b nb, t.fs.inode b = some nb →
      b = a ∧ nb = node' ∨ b ≠ a ∧ s.fs.inode b = some nb := by
    intro b nb hb
    rw [hfs.inode] at hb
    exact SfsFs.store_inode_cases hb
  refine ⟨(h.tables.store hnode hino).congr hfs, ?_, ?_, ?_, ?_, ?_⟩
  · intro b nb hb
    rcases hcases b nb hb with ⟨rfl, rfl⟩ | ⟨-, hb⟩
    · exact href
    · exact h.ref b nb hb
  · intro b nb hb
    rcases hcases b nb hb with ⟨rfl, rfl⟩ | ⟨hne, hb⟩
    · exact hcount
    · rw [hpending b hne]
      exact h.count b nb hb
  · intro b hb
    rw [ne_eq, SfsState.Keeps.of_store hnode hfs b]
    by_cases hne : b = a
    · subst hne
      simp [hnode]
    · rw [hpending b hne] at hb
      exact h.pending b hb
  · intro ino hino' b nb hb
    rcases hcases b nb hb with ⟨rfl, rfl⟩ | ⟨-, hb⟩
    · rw [hino]
      exact h.reading ino (hreading ino hino') b node hnode
    · exact h.reading ino (hreading ino hino') b nb hb
  · intro b hb
    by_cases hne : b = a
    · subst hne
      exact ⟨node', by rw [hfs.inode]; exact SfsFs.store_inode_self, hself hb⟩
    · obtain ⟨nb, hnb, hzero⟩ := h.reclaiming b (hreclaiming b hne hb)
      exact ⟨nb, by rw [hfs.inode, SfsFs.store_inode_of_ne hne, hnb], hzero⟩

/-! ## What the functions do -/

theorem bitmapTest_safe (b : Bitmap) (index : Nat) : Safe (bitmapTest b index) fun _ => True :=
  Safe.assert_bind fun _ => trivial

theorem bitmapFree_safe (b : Bitmap) (index : Nat) : Safe (bitmapFree b index) fun _ => True :=
  (bitmapTest_safe b index).bind fun _ _ => Safe.assert_bind fun _ => trivial

theorem sfsBlockInuse_safe (fs : SfsFs) (ino : UInt32) : Safe (sfsBlockInuse fs ino) fun _ => True := by
  unfold sfsBlockInuse
  split
  · exact (bitmapTest_safe _ _).bind fun _ _ => trivial
  · trivial

theorem sfsBlockFree_safe (fs : SfsFs) (ino : UInt32) :
    Safe (sfsBlockFree fs ino) fun fs' => fs'.SameInodes fs :=
  (sfsBlockInuse_safe fs ino).bind fun _ _ =>
    Safe.assert_bind fun _ => (bitmapFree_safe _ _).bind fun _ _ => ⟨rfl, rfl, rfl⟩

theorem freeInodeBlocks_safe (fs : SfsFs) (node : Inode) :
    Safe (freeInodeBlocks fs node) fun fs' => fs'.SameInodes fs := by
  unfold freeInodeBlocks
  split
  · refine (sfsBlockFree_safe fs node.ino).bind fun fs1 h1 => ?_
    split
    · refine (sfsBlockFree_safe fs1 _).mono fun fs2 h2 => ?_
      exact ⟨h2.inode.trans h1.inode, h2.inodeList.trans h1.inodeList, h2.hashList.trans h1.hashList⟩
    · exact h1
  · exact SfsFs.SameInodes.refl fs

theorem sfsGetOps_safe (type : UInt16) : Safe (sfsGetOps type) fun _ => True := by
  unfold sfsGetOps
  split
  · trivial
  · split <;> trivial

theorem inodeCheck_safe (node : Inode) : Safe (inodeCheck node) fun _ => True :=
  Safe.assert_bind fun _ => by
    unfold Outcome.assert
    split <;> trivial

/-- The search finds the inode with the number, if there is one in the list. -/
theorem searchIno_safe (fs : SfsFs) (ino : UInt32) :
    ∀ as : List Nat, (∀ a ∈ as, fs.inode a ≠ none) → Safe (searchIno fs ino as) fun r =>
      match r with
      | some a => ∃ node, fs.inode a = some node ∧ node.ino = ino
      | none => ∀ a ∈ as, ∀ node, fs.inode a = some node → node.ino ≠ ino
  | [], _ => by
      intro a ha
      cases ha
  | a :: as, hin => by
      obtain ⟨node, hnode⟩ := Option.ne_none_iff_exists'.1 (hin a (by simp))
      unfold searchIno
      rw [SfsFs.deref_eq_done hnode, bind_done]
      split
      · next hino => exact ⟨node, hnode, hino⟩
      · next hino =>
          refine (searchIno_safe fs ino as fun b hb => hin b (by simp [hb])).mono fun r hr => ?_
          cases r with
          | some b => exact hr
          | none =>
              intro b hb nb hnb
              rcases List.mem_cons.1 hb with rfl | hb
              · rw [hnode] at hnb
                cases hnb
                exact hino
              · exact hr b hb nb hnb

theorem lookupSfsNolock_safe (h : fs.Tables) (ino : UInt32) : Safe (lookupSfsNolock fs ino) fun r =>
    (r = (none, fs) ∧ ∀ a node, fs.inode a = some node → node.ino ≠ ino) ∨
      ∃ a node, fs.inode a = some node ∧ node.ino = ino ∧ r = (some a, fs.store a node.lookedUp) := by
  unfold lookupSfsNolock
  refine (searchIno_safe fs ino _ fun a ha => ?_).bind fun r hr => ?_
  · obtain ⟨node, hnode, -⟩ := (h.mem_hash _ a).1 ha
    simp [hnode]
  · cases r with
    | none =>
        left
        refine ⟨rfl, fun a node hnode hino => ?_⟩
        exact hr a ((h.mem_hash _ a).2 ⟨node, hnode, by rw [hino]⟩) node hnode hino
    | some a =>
        obtain ⟨node, hnode, hino⟩ := hr
        simp only [SfsFs.deref_eq_done hnode, bind_done]
        exact Or.inr ⟨a, node, hnode, hino, rfl⟩

@[simp] theorem Inode.lookedUp_ino (node : Inode) : node.lookedUp.ino = node.ino := by
  simp only [Inode.lookedUp]
  split <;> rfl

@[simp] theorem Inode.lookedUp_refCount (node : Inode) :
    node.lookedUp.refCount = node.refCount + 1 := by
  simp only [Inode.lookedUp]
  split <;> rfl

/-- The first reference that a lookup hands out is counted, the others are not. -/
theorem Inode.lookedUp_reclaimCount (node : Inode) :
    node.lookedUp.reclaimCount = node.reclaimCount + if node.refCount = 0 then 1 else 0 := by
  unfold Inode.lookedUp
  by_cases hz : node.refCount = 0
  · simp [inodeRefInc, hz]
  · have hne : ¬ node.refCount + 1 = 1 := by omega
    simp [inodeRefInc, hz, hne]

/-! ## What a step does -/

/-- The reclaim that holds `fs_sem` fails in `vop_truncate` or in `vop_fsync`. -/
def SfsOp.Fails (op : SfsOp) (ret : Int) : Prop :=
  (∃ din dirty, op = SfsOp.truncated ret din dirty) ∨ op = SfsOp.synced ret

/-- What a step does to the inodes in memory, and what the call that it ends has done: an inode is freed
by a reclaim that returns 0, and made by `alloc_inode`; a reclaim that has taken effect returns or waits. -/
structure StepFacts (s : SfsState) (op : SfsOp) (t : SfsState) (e : Option FsEvent) : Prop where
  freed : ∀ a node, s.fs.inode a = some node → t.fs.inode a = none →
    e = some (FsEvent.reclaimed a 0) ∧ node.refCount = 0 ∧ t.pending a = 0
  created : ∀ a, s.fs.inode a = none → t.fs.inode a ≠ none →
    ∃ din node, op = SfsOp.loaded 0 din (some (a, node))
  reclaimed : ∀ a ret, e = some (FsEvent.reclaimed a ret) → s.fs.inode a ≠ none ∧
    (ret = 0 ∧ t.fs.inode a = none ∨
      ret ≠ 0 ∧ t.fs.inode a ≠ none ∧
        (op = SfsOp.enterReclaim a ∧ (0 < t.pending a ∨ t.Referenced a) ∨ op.Fails ret))
  loaded : ∀ ino a, e = some (FsEvent.loaded ino a) →
    ∃ node, t.fs.inode a = some node ∧ node.ino = ino ∧ 0 < node.refCount
  settles : ∀ a, op = SfsOp.enterReclaim a ∨ s.Reclaiming a →
    t.Reclaiming a ∨ ∃ ret, e = some (FsEvent.reclaimed a ret)

/-- A step that frees no inode and ends no call, or a load without success. -/
theorem StepFacts.of_keeps (h : s.Keeps t)
    (he : e = none ∨ ∃ ino ret, e = some (FsEvent.loadFailed ino ret))
    (hop : ∀ a, op ≠ SfsOp.enterReclaim a) (hholder : ∀ a, s.Reclaiming a → t.holder = s.holder) :
    StepFacts s op t e := by
  refine ⟨fun a node hnode hnone => ?_, fun a hnone hsome => ?_, fun a ret hre => ?_,
    fun ino a hlo => ?_, fun a hor => ?_⟩
  · exact absurd ((h a).1 hnone) (by simp [hnode])
  · exact absurd ((h a).2 hnone) hsome
  · rcases he with rfl | ⟨ino, ret, rfl⟩ <;> cases hre
  · rcases he with rfl | ⟨ino, ret, rfl⟩ <;> cases hlo
  · rcases hor with rfl | hre
    · exact absurd rfl (hop a)
    · left
      rwa [SfsState.Reclaiming, hholder a hre]

theorem SfsState.not_reclaiming (h : ∀ a, s.holder ≠ some (FsHolder.truncating a) ∧
    s.holder ≠ some (FsHolder.syncing a)) (a : Nat) : ¬ s.Reclaiming a := by
  rintro (ha | ha)
  · exact (h a).1 ha
  · exact (h a).2 ha

theorem pending_erase_load (b : Nat) :
    (s.waiting.erase (FsCall.loadInode ino)).count (FsCall.reclaim b) = s.pending b :=
  List.count_erase_of_ne (by simp)

theorem pending_erase_of_ne {b : Nat} (h : b ≠ a) :
    (s.waiting.erase (FsCall.reclaim a)).count (FsCall.reclaim b) = s.pending b :=
  List.count_erase_of_ne (by simpa using h)

theorem pending_erase_self :
    (s.waiting.erase (FsCall.reclaim a)).count (FsCall.reclaim a) = s.pending a - 1 :=
  List.count_erase_self

/-- A lookup of an inode that is in memory. -/
theorem ReclaimInv.lookup (h : ReclaimInv s) (hnode : s.fs.inode a = some node)
    (hfs : t.fs.SameInodes (s.fs.store a node.lookedUp)) (hpending : ∀ b, t.pending b = s.pending b)
    (hholder : t.holder = none) : ReclaimInv t := by
  have href := h.ref a node hnode
  have hcount := h.count a node hnode
  refine h.update hnode hfs (by simp) ?_ ?_ (fun b _ => hpending b) ?_ ?_ ?_
  · rw [Inode.lookedUp_refCount]
    omega
  · rw [Inode.lookedUp_reclaimCount, Inode.lookedUp_refCount, hpending, hcount]
    split_ifs <;> omega
  · simp [hholder]
  · simp [SfsState.Reclaiming, hholder]
  · simp [SfsState.Reclaiming, hholder]

theorem loadStart_safe (h : ReclaimInv s) (hholder : s.holder = none) (ino : UInt32) (dinOk : Bool) :
    Safe (loadStart { s with waiting := s.waiting.erase (FsCall.loadInode ino) } ino dinOk) fun r =>
      ReclaimInv r.1 ∧ StepFacts s (SfsOp.enterLoad ino dinOk) r.1 r.2 := by
  have hfree : ∀ a, ¬ s.Reclaiming a := SfsState.not_reclaiming fun a => by simp [hholder]
  unfold loadStart
  refine (lookupSfsNolock_safe h.tables ino).bind fun r hr => ?_
  rcases hr with ⟨rfl, hnew⟩ | ⟨a, node, hnode, hino, rfl⟩
  · have hkeeps : ∀ t : SfsState, t.fs = s.fs → s.Keeps t := fun t ht =>
      SfsState.Keeps.of_same (by rw [ht]; exact SfsFs.SameInodes.refl _)
    dsimp only
    split
    · refine (sfsBlockInuse_safe _ _).bind fun _ _ => Safe.assert_bind fun _ => ?_
      refine ⟨h.frame (SfsFs.SameInodes.refl _) (fun b => pending_erase_load b) ?_ ?_,
        StepFacts.of_keeps (hkeeps _ rfl) (Or.inl rfl) (fun _ => by simp) fun b hb =>
          absurd hb (hfree b)⟩
      · rintro i hi
        cases hi
        exact hnew
      · rintro b (hb | hb) <;> cases hb
    · refine ⟨h.frame (SfsFs.SameInodes.refl _) (fun b => pending_erase_load b) ?_ ?_,
        StepFacts.of_keeps (hkeeps _ rfl) (Or.inr ⟨_, _, rfl⟩) (fun _ => by simp) fun b hb =>
          absurd hb (hfree b)⟩
      · intro i hi
        cases hi
      · rintro b (hb | hb) <;> cases hb
  · have hkeeps := SfsState.Keeps.of_store (t := { s with fs := s.fs.store a node.lookedUp }) hnode
      (SfsFs.SameInodes.refl _)
    refine ⟨h.lookup hnode (SfsFs.SameInodes.refl _) (fun b => pending_erase_load b) rfl,
      ?_, ?_, ?_, ?_, ?_⟩
    · exact fun b nb hnb hnone => absurd ((hkeeps b).1 hnone) (by simp [hnb])
    · exact fun b hnone hsome => absurd ((hkeeps b).2 hnone) hsome
    · rintro b ret he
      cases he
    · rintro i b he
      cases he
      refine ⟨node.lookedUp, SfsFs.store_inode_self, by simpa using hino, ?_⟩
      have href := h.ref a node hnode
      rw [Inode.lookedUp_refCount]
      omega
    · rintro b (hb | hb)
      · cases hb
      · exact absurd hb (hfree b)

/-- A step that gives `fs_sem` back and leaves everything else alone. -/
theorem ReclaimInv.unlock (h : ReclaimInv s) : ReclaimInv { s with holder := none } := by
  refine h.frame (SfsFs.SameInodes.refl _) (fun _ => rfl) ?_ ?_
  · intro i hi
    cases hi
  · rintro b (hb | hb) <;> cases hb

theorem sfsCreateInode_safe (fs : SfsFs) (din : DiskInode) (ino : UInt32) (a : Nat) (node : Inode) :
    Safe (sfsCreateInode fs din ino a node) fun fs' => ∃ new : Inode,
      fs' = fs.store a new ∧ new.ino = ino ∧ new.refCount = 1 ∧ new.reclaimCount = 1 :=
  (sfsGetOps_safe din.type).bind fun _ _ => ⟨_, rfl, rfl, rfl, rfl⟩

theorem loadFinish_safe (h : ReclaimInv s) (hholder : s.holder = some (FsHolder.reading ino)) (ret : Int)
    (din : DiskInode) (mem : Option (Nat × Inode))
    (hmem : ∀ a node, mem = some (a, node) → s.fs.inode a = none) :
    Safe (loadFinish s ino ret din mem) fun r =>
      ReclaimInv r.1 ∧ StepFacts s (SfsOp.loaded ret din mem) r.1 r.2 := by
  have hbusy : ∀ a, ¬ s.Reclaiming a := SfsState.not_reclaiming fun a => by simp [hholder]
  have hfail : ∀ code, ReclaimInv (s.unlock s.fs (FsEvent.loadFailed ino code)).1 ∧
      StepFacts s (SfsOp.loaded ret din mem) (s.unlock s.fs (FsEvent.loadFailed ino code)).1
        (s.unlock s.fs (FsEvent.loadFailed ino code)).2 := fun code =>
    ⟨h.unlock, StepFacts.of_keeps (SfsState.Keeps.of_same (SfsFs.SameInodes.refl _))
      (Or.inr ⟨ino, code, rfl⟩) (fun _ => by simp) fun b hb => absurd hb (hbusy b)⟩
  unfold loadFinish
  split
  · exact hfail ret
  · next hret =>
      refine Safe.assert_bind fun _ => ?_
      rcases mem with - | ⟨a, node⟩
      · exact hfail _
      · have hfree := hmem a node rfl
        refine (sfsCreateInode_safe s.fs din ino a node).bind fun _ hfs => ?_
        obtain ⟨new, rfl, hino, href, hreclaim⟩ := hfs
        -- the new inode has one reference and no reclaim is pending on it
        have hpending : s.pending a = 0 := by
          by_contra hc
          exact h.pending a (by omega) hfree
        have hret0 : ret = 0 := by simpa using hret
        subst hret0 hino
        let fs := sfsSetLinks (s.fs.store a new) a new.ino
        have hself : fs.inode a = some new := SfsFs.store_inode_self
        have hother : ∀ b, b ≠ a → fs.inode b = s.fs.inode b := fun b hb => SfsFs.store_inode_of_ne hb
        have hcases : ∀ b nb, fs.inode b = some nb → b = a ∧ nb = new ∨ b ≠ a ∧ s.fs.inode b = some nb :=
          fun b nb hb => SfsFs.store_inode_cases hb
        change ReclaimInv { s with fs := fs, holder := none } ∧
          StepFacts s _ { s with fs := fs, holder := none } (some (FsEvent.loaded new.ino a))
        refine ⟨⟨?_, ?_, ?_, ?_, ?_, ?_⟩, ?_, ?_, ?_, ?_, ?_⟩
        · exact h.tables.create hfree (h.reading new.ino hholder)
        · intro b nb hb
          rcases hcases b nb hb with ⟨rfl, rfl⟩ | ⟨-, hb⟩
          · omega
          · exact h.ref b nb hb
        · intro b nb hb
          rcases hcases b nb hb with ⟨rfl, rfl⟩ | ⟨-, hb⟩
          · change nb.reclaimCount = (s.pending b : Int) + _
            simp [hpending, href, hreclaim]
          · exact h.count b nb hb
        · intro b hb
          by_cases hba : b = a
          · subst hba
            simp [hself]
          · rw [hother b hba]
            exact h.pending b hb
        · intro i hi
          cases hi
        · rintro b (hb | hb) <;> cases hb
        · intro b nb hnb hnone
          by_cases hba : b = a
          · subst hba
            simp [hself] at hnone
          · rw [hother b hba, hnb] at hnone
            cases hnone
        · intro b hnone hsome
          by_cases hba : b = a
          · subst hba
            exact ⟨din, node, rfl⟩
          · rw [hother b hba] at hsome
            exact absurd hnone hsome
        · intro b code he
          cases he
        · intro i b he
          cases he
          exact ⟨new, hself, rfl, by omega⟩
        · rintro b (hb | hb)
          · cases hb
          · exact absurd hb (hbusy b)

/-- A write that leaves `reclaim_count` alone and adds references only to an inode that has some. -/
theorem ReclaimInv.write (h : ReclaimInv s) (hnode : s.fs.inode a = some node)
    (hino : node'.ino = node.ino) (hreclaim : node'.reclaimCount = node.reclaimCount)
    (href : node'.refCount = node.refCount ∨ 0 < node.refCount ∧ node'.refCount = node.refCount + 1) :
    ReclaimInv { s with fs := s.fs.store a node' } := by
  have hnonneg := h.ref a node hnode
  have hcount := h.count a node hnode
  refine h.update hnode (SfsFs.SameInodes.refl _) hino ?_ ?_ (fun _ _ => rfl) (fun _ hi => hi) ?_
    fun _ _ hb => hb
  · rcases href with href | ⟨hpos, href⟩ <;> omega
  · rw [hreclaim, hcount]
    change (s.pending a : Int) + _ = (s.pending a : Int) + _
    rcases href with href | ⟨hpos, href⟩
    · rw [href]
    · rw [if_pos hpos, if_pos (by omega)]
  · intro hb
    obtain ⟨node1, hnode1, href1, hreclaim1⟩ := h.reclaiming a hb
    rw [hnode] at hnode1
    cases hnode1
    rcases href with href | ⟨hpos, href⟩
    · exact ⟨href.trans href1, hreclaim.trans hreclaim1⟩
    · omega

/-- `inode_ref_dec`: when the last reference is dropped a reclaim is issued, which takes its place in
the count. -/
theorem inodeRefDec_safe (h : ReclaimInv s) (href : s.Referenced a) :
    Safe (inodeRefDec s a) fun t => ReclaimInv t ∧ StepFacts s (SfsOp.refDec a) t none := by
  obtain ⟨node, hnode, hpos⟩ := href
  have hcount := h.count a node hnode
  rw [if_pos hpos] at hcount
  have hfree : ¬ s.Reclaiming a := by
    intro hb
    obtain ⟨node1, hnode1, href1, -⟩ := h.reclaiming a hb
    rw [hnode] at hnode1
    cases hnode1
    omega
  unfold inodeRefDec
  rw [SfsFs.deref_eq_done hnode, bind_done]
  refine Safe.assert_bind fun _ => ?_
  let low : Inode := { node with refCount := node.refCount - 1 }
  have hfacts : ∀ t : SfsState, t.fs = s.fs.store a low → t.holder = s.holder →
      StepFacts s (SfsOp.refDec a) t none := fun t ht hholder =>
    StepFacts.of_keeps (SfsState.Keeps.of_store hnode (by rw [ht]; exact SfsFs.SameInodes.refl _))
      (Or.inl rfl) (fun _ => by simp) fun _ _ => hholder
  dsimp only
  split
  · next hzero =>
      refine (inodeCheck_safe _).bind fun _ _ => ⟨h.update hnode (SfsFs.SameInodes.refl _) rfl ?_ ?_ ?_
        (fun _ hi => hi) (fun hb => absurd hb hfree) fun _ _ hb => hb,
        hfacts _ rfl rfl⟩
      · exact hzero.ge
      · change node.reclaimCount = ((s.waiting ++ [FsCall.reclaim a]).count (FsCall.reclaim a) : Int) +
          if 0 < node.refCount - 1 then 1 else 0
        rw [hcount, if_neg (by omega), List.count_append]
        simp [SfsState.pending]
      · intro b hb
        change (s.waiting ++ [FsCall.reclaim a]).count (FsCall.reclaim b) = _
        have hnot : [FsCall.reclaim a].count (FsCall.reclaim b) = 0 :=
          List.count_eq_zero_of_not_mem (by simpa using hb)
        rw [List.count_append, hnot]
        rfl
  · next hzero =>
      refine ⟨h.update hnode (SfsFs.SameInodes.refl _) rfl ?_ ?_ (fun _ _ => rfl) (fun _ hi => hi)
        (fun hb => absurd hb hfree) fun _ _ hb => hb, hfacts _ rfl rfl⟩
      · change (0 : Int) ≤ node.refCount - 1
        omega
      · change node.reclaimCount = (s.pending a : Int) + if 0 < node.refCount - 1 then 1 else 0
        rw [hcount, if_pos (by omega)]

/-! ## What a reclaim does -/

/-- The last reclaim of the inode has freed it and returned 0, or waits. -/
structure Settled (s : SfsState) (a : Nat) (r : SfsState × Option FsEvent) : Prop where
  waiting : r.1.waiting = s.waiting
  other : ∀ b, b ≠ a → (r.1.fs.inode b = none ↔ s.fs.inode b = none)
  self : r.2 = none ∧ r.1.fs.inode a ≠ none ∧ r.1.Reclaiming a ∨
    r.2 = some (FsEvent.reclaimed a 0) ∧ r.1.fs.inode a = none

/-- Nothing but a reclaim that is under way knows the inode. -/
def SfsState.Last (s : SfsState) (a : Nat) : Prop :=
  ∃ node, s.fs.inode a = some node ∧ node.refCount = 0 ∧ node.reclaimCount = 0

theorem ReclaimInv.pending_eq_zero (h : ReclaimInv s) (ha : s.Last a) : s.pending a = 0 := by
  obtain ⟨node, hnode, href, hreclaim⟩ := ha
  have hcount := h.count a node hnode
  rw [hreclaim, href, if_neg (lt_irrefl _)] at hcount
  omega

theorem StepFacts.of_settled {s0 : SfsState} {r : SfsState × Option FsEvent} (h : Settled s a r)
    (hkeeps : s0.Keeps s) (hpending : s.pending a = 0) (hnode : s0.fs.inode a = some node)
    (href : node.refCount = 0) (hop : op = SfsOp.enterReclaim a ∧ s0.holder = none ∨
      (∀ b, op ≠ SfsOp.enterReclaim b) ∧ s0.Reclaiming a) : StepFacts s0 op r.1 r.2 := by
  have hother : ∀ b, b ≠ a → (r.1.fs.inode b = none ↔ s0.fs.inode b = none) := fun b hb =>
    (h.other b hb).trans (hkeeps b)
  have hzero : r.1.pending a = 0 := by
    rw [SfsState.pending, h.waiting]
    exact hpending
  refine ⟨?_, ?_, ?_, ?_, ?_⟩
  · intro b nb hnb hnone
    by_cases hb : b = a
    · subst hb
      rw [hnode] at hnb
      cases hnb
      rcases h.self with ⟨-, hsome, -⟩ | ⟨he, -⟩
      · exact absurd hnone hsome
      · exact ⟨he, href, hzero⟩
    · rw [hother b hb, hnb] at hnone
      cases hnone
  · intro b hnone hsome
    by_cases hb : b = a
    · subst hb
      rw [hnode] at hnone
      cases hnone
    · exact absurd ((hother b hb).2 hnone) hsome
  · intro b ret he
    rcases h.self with ⟨hnone, -⟩ | ⟨he', hgone⟩
    · rw [hnone] at he
      cases he
    · rw [he'] at he
      cases he
      exact ⟨by simp [hnode], Or.inl ⟨rfl, hgone⟩⟩
  · intro i b he
    rcases h.self with ⟨hnone, -⟩ | ⟨he', -⟩
    · rw [hnone] at he
      cases he
    · rw [he'] at he
      cases he
  · intro b hb
    have hba : b = a := by
      rcases hop with ⟨rfl, hnone⟩ | ⟨hop, hre⟩
      · rcases hb with hb | hb | hb
        · cases hb
          rfl
        · simp [hnone] at hb
        · simp [hnone] at hb
      · rcases hb with rfl | hb
        · exact absurd rfl (hop b)
        · rcases hre with hre | hre <;> rcases hb with hb | hb <;> rw [hre] at hb <;> cases hb <;> rfl
    subst hba
    rcases h.self with ⟨-, -, hre⟩ | ⟨he, -⟩
    · exact Or.inl hre
    · exact Or.inr ⟨0, he⟩

/-- `inode_kill` frees the memory of the inode. -/
theorem inodeKill_safe (hnode : fs.inode a = some node) :
    Safe (inodeKill fs a) fun fs' => fs'.inode = Function.update fs.inode a none ∧
      fs'.inodeList = fs.inodeList ∧ fs'.hashList = fs.hashList := by
  unfold inodeKill
  rw [SfsFs.deref_eq_done hnode, bind_done]
  exact Safe.assert_bind fun _ => Safe.assert_bind fun _ => ⟨rfl, rfl, rfl⟩

theorem reclaimFinish_safe (h : ReclaimInv s) (ha : s.Last a) :
    Safe (reclaimFinish s a) fun r => ReclaimInv r.1 ∧ Settled s a r := by
  have hpending := h.pending_eq_zero ha
  obtain ⟨node, hnode, -, -⟩ := ha
  unfold reclaimFinish
  rw [SfsFs.deref_eq_done hnode, bind_done]
  refine (freeInodeBlocks_safe _ node).bind fun fs1 h1 => ?_
  have hnode1 : fs1.inode a = some node := by rw [h1.inode]; exact hnode
  refine (inodeKill_safe hnode1).bind fun fs2 h2 => ?_
  obtain ⟨hinode, hlist, hhash⟩ := h2
  rw [h1.inode] at hinode
  change fs2.inode = Function.update s.fs.inode a none at hinode
  have hcases : ∀ b nb, fs2.inode b = some nb → b ≠ a ∧ s.fs.inode b = some nb := by
    intro b nb hb
    rw [hinode] at hb
    by_cases hba : b = a
    · subst hba
      simp at hb
    · exact ⟨hba, by rwa [Function.update_of_ne hba] at hb⟩
  refine ⟨⟨?_, ?_, ?_, ?_, ?_, ?_⟩, rfl, ?_, Or.inr ⟨rfl, ?_⟩⟩
  · exact h.tables.free hinode (hlist.trans h1.inodeList) (hhash.trans h1.hashList)
  · exact fun b nb hb => h.ref b nb (hcases b nb hb).2
  · exact fun b nb hb => h.count b nb (hcases b nb hb).2
  · intro b hb
    change 0 < s.pending b at hb
    change fs2.inode b ≠ none
    have hba : b ≠ a := by
      rintro rfl
      omega
    rw [hinode, Function.update_of_ne hba]
    exact h.pending b hb
  · intro i hi
    cases hi
  · rintro b (hb | hb) <;> cases hb
  · intro b hb
    change fs2.inode b = none ↔ _
    rw [hinode, Function.update_of_ne hb]
  · change fs2.inode a = none
    rw [hinode, Function.update_self]

/-- The reclaim goes on to wait for the device. -/
theorem ReclaimInv.reclaimBlock (h : ReclaimInv s) (hnode : s.fs.inode a = some node)
    (href : node.refCount = 0) (hreclaim : node.reclaimCount = 0) (hino : node'.ino = node.ino)
    (href' : node'.refCount = 0) (hreclaim' : node'.reclaimCount = 0) {holder : FsHolder}
    (hholder : holder = FsHolder.truncating a ∨ holder = FsHolder.syncing a)
    (hfs : fs.SameInodes (s.fs.store a node')) :
    ReclaimInv (s.block fs holder).1 ∧ Settled s a (s.block fs holder) := by
  have hpending := h.pending_eq_zero ⟨node, hnode, href, hreclaim⟩
  have hnot : ∀ b, (s.block fs holder).1.Reclaiming b → b = a := by
    rintro b (hb | hb) <;> rcases hholder with rfl | rfl <;> cases hb <;> rfl
  refine ⟨h.update hnode hfs hino href'.ge ?_ (fun _ _ => rfl) ?_ (fun _ => ⟨href', hreclaim'⟩) ?_,
    rfl, ?_, Or.inl ⟨rfl, ?_, ?_⟩⟩
  · change node'.reclaimCount = (s.pending a : Int) + _
    rw [hreclaim', href', hpending, if_neg (lt_irrefl _)]
    rfl
  · rintro i hi
    rcases hholder with rfl | rfl <;> cases hi
  · exact fun b hne hb => absurd (hnot b hb) hne
  · intro b hb
    change fs.inode b = none ↔ _
    rw [hfs.inode, SfsFs.store_inode_of_ne hb]
  · change fs.inode a ≠ none
    rw [hfs.inode]
    simp
  · rcases hholder with rfl | rfl
    · exact Or.inl rfl
    · exact Or.inr rfl

theorem SfsFs.store_self (h : fs.inode a = some node) : fs.SameInodes (fs.store a node) := by
  refine ⟨?_, rfl, rfl⟩
  change fs.inode = Function.update fs.inode a (some node)
  rw [← h, Function.update_eq_self]

theorem reclaimSync_safe (h : ReclaimInv s) (ha : s.Last a) :
    Safe (reclaimSync s a) fun r => ReclaimInv r.1 ∧ Settled s a r := by
  obtain ⟨node, hnode, href, hreclaim⟩ := ha
  unfold reclaimSync
  rw [SfsFs.deref_eq_done hnode, bind_done]
  split
  · let clean : Inode := { node with dirty := false }
    have hino : clean.ino = node.ino := rfl
    exact (inodeCheck_safe node).bind fun _ _ =>
      h.reclaimBlock hnode href hreclaim hino href hreclaim (Or.inr rfl) (SfsFs.SameInodes.refl _)
  · exact reclaimFinish_safe h ⟨node, hnode, href, hreclaim⟩

/-- `sfs_reclaim` gets `fs_sem` and takes effect. -/
theorem reclaimStart_safe (h : ReclaimInv s) (hholder : s.holder = none)
    (hin : FsCall.reclaim a ∈ s.waiting) :
    Safe (reclaimStart { s with waiting := s.waiting.erase (FsCall.reclaim a) } a) fun r =>
      ReclaimInv r.1 ∧ StepFacts s (SfsOp.enterReclaim a) r.1 r.2 := by
  have hpos : 0 < s.pending a := List.count_pos_iff.2 hin
  obtain ⟨node, hnode⟩ := Option.ne_none_iff_exists'.1 (h.pending a hpos)
  have hcount := h.count a node hnode
  have hnonneg := h.ref a node hnode
  unfold reclaimStart
  rw [SfsFs.deref_eq_done hnode, bind_done]
  refine Safe.assert_bind fun _ => ?_
  let low : Inode := { node with reclaimCount := node.reclaimCount - 1 }
  let s1 : SfsState :=
    { s with waiting := s.waiting.erase (FsCall.reclaim a), fs := s.fs.store a low }
  have hpending : s1.pending a = s.pending a - 1 := pending_erase_self
  have hinv : ReclaimInv s1 := by
    refine h.update hnode (SfsFs.SameInodes.refl _) rfl hnonneg ?_ (fun b hb => pending_erase_of_ne hb)
      (fun _ hi => hi) ?_ fun _ _ hb => hb
    · rw [hpending]
      change node.reclaimCount - 1 = _ + if 0 < node.refCount then 1 else 0
      omega
    · rintro (hb | hb) <;> rw [show s1.holder = s.holder from rfl, hholder] at hb <;> cases hb
  have hkeeps : s.Keeps s1 := SfsState.Keeps.of_store hnode (SfsFs.SameInodes.refl _)
  have hlow : s1.fs.inode a = some low := SfsFs.store_inode_self
  dsimp only
  split
  · next hbusy =>
      refine ⟨hinv.unlock, ?_, ?_, ?_, ?_, ?_⟩
      · exact fun b nb hnb hnone => absurd ((hkeeps b).1 hnone) (by simp [hnb])
      · exact fun b hnone hsome => absurd ((hkeeps b).2 hnone) hsome
      · intro b ret he
        cases he
        refine ⟨by simp [hnode], Or.inr ⟨by decide, ?_, Or.inl ⟨rfl, ?_⟩⟩⟩
        · change s1.fs.inode a ≠ none
          simp [hlow]
        · change 0 < s1.pending a ∨ s1.Referenced a
          rw [hpending]
          by_cases href : 0 < node.refCount
          · exact Or.inr ⟨low, hlow, href⟩
          · left
            rw [if_neg href] at hcount
            omega
      · intro i b he
        cases he
      · rintro b (hb | hb | hb)
        · cases hb
          exact Or.inr ⟨_, rfl⟩
        · simp [hholder] at hb
        · simp [hholder] at hb
  · next hlast =>
      obtain ⟨hreclaim, href⟩ : node.reclaimCount - 1 = 0 ∧ node.refCount = 0 := by
        simpa [not_or] using hlast
      have hlast1 : s1.Last a := ⟨low, hlow, href, hreclaim⟩
      have hfacts : ∀ r, ReclaimInv r.1 ∧ Settled s1 a r →
          ReclaimInv r.1 ∧ StepFacts s (SfsOp.enterReclaim a) r.1 r.2 := fun r hr =>
        ⟨hr.1, StepFacts.of_settled hr.2 hkeeps (hinv.pending_eq_zero hlast1) hnode href
          (Or.inl ⟨rfl, hholder⟩)⟩
      split
      · refine Safe.assert_bind fun _ => (inodeCheck_safe _).bind fun _ _ => hfacts _ ?_
        exact hinv.reclaimBlock hlow href hreclaim rfl href hreclaim (Or.inl rfl)
          (SfsFs.store_self hlow)
      · exact (reclaimSync_safe hinv hlast1).mono hfacts

/-- The reclaim has failed: the inode stays, without references and without reclaims. -/
theorem ReclaimInv.reclaimFail (h : ReclaimInv s) (hnode : s.fs.inode a = some node)
    (href : node.refCount = 0) (hreclaim : node.reclaimCount = 0) (hino : node'.ino = node.ino)
    (href' : node'.refCount = 0) (hreclaim' : node'.reclaimCount = 0) {ret : Int} (hret : ret ≠ 0)
    (hfails : op.Fails ret) (hself : s.Reclaiming a) :
    ReclaimInv (s.unlock (s.fs.store a node') (FsEvent.reclaimed a ret)).1 ∧
      StepFacts s op (s.unlock (s.fs.store a node') (FsEvent.reclaimed a ret)).1
        (s.unlock (s.fs.store a node') (FsEvent.reclaimed a ret)).2 := by
  have hpending := h.pending_eq_zero ⟨node, hnode, href, hreclaim⟩
  have hfs := SfsFs.SameInodes.refl (s.fs.store a node')
  have hkeeps := SfsState.Keeps.of_store (t := { s with fs := s.fs.store a node' }) hnode hfs
  refine ⟨h.update hnode hfs hino href'.ge ?_ (fun _ _ => rfl) ?_ ?_ ?_, ?_, ?_, ?_, ?_, ?_⟩
  · change node'.reclaimCount = (s.pending a : Int) + _
    rw [hreclaim', href', hpending, if_neg (lt_irrefl _)]
    rfl
  · intro i hi
    cases hi
  · rintro (hb | hb) <;> cases hb
  · rintro b - (hb | hb) <;> cases hb
  · exact fun b nb hnb hnone => absurd ((hkeeps b).1 hnone) (by simp [hnb])
  · exact fun b hnone hsome => absurd ((hkeeps b).2 hnone) hsome
  · intro b ret' he
    cases he
    exact ⟨by simp [hnode], Or.inr ⟨hret, by simp [SfsState.unlock], Or.inr hfails⟩⟩
  · intro i b he
    cases he
  · intro b hb
    have hba : b = a := by
      rcases hb with rfl | hb
      · rcases hfails with ⟨din, dirty, hop⟩ | hop <;> cases hop
      · rcases hself with hself | hself <;> rcases hb with hb | hb <;> rw [hself] at hb <;> cases hb <;>
          rfl
    exact Or.inr ⟨ret, by rw [hba]; rfl⟩

theorem reclaimTruncated_safe (h : ReclaimInv s) (hholder : s.holder = some (FsHolder.truncating a))
    (ret : Int) (din : DiskInode) (dirty : Bool) :
    Safe (reclaimTruncated s a ret din dirty) fun r =>
      ReclaimInv r.1 ∧ StepFacts s (SfsOp.truncated ret din dirty) r.1 r.2 := by
  obtain ⟨node, hnode, href, hreclaim⟩ := h.reclaiming a (Or.inl hholder)
  let left : Inode := { node with din := din, dirty := dirty }
  have hino : left.ino = node.ino := rfl
  let s1 : SfsState := { s with fs := s.fs.store a left }
  have hlast : s.Last a := ⟨node, hnode, href, hreclaim⟩
  have hinv : ReclaimInv s1 := h.write hnode hino rfl (Or.inl rfl)
  have hkeeps : s.Keeps s1 := SfsState.Keeps.of_store hnode (SfsFs.SameInodes.refl _)
  unfold reclaimTruncated
  rw [SfsFs.deref_eq_done hnode, bind_done]
  dsimp only
  split
  · next hret =>
      exact h.reclaimFail hnode href hreclaim hino href hreclaim hret (Or.inl ⟨_, _, rfl⟩) (Or.inl hholder)
  · refine (reclaimSync_safe hinv ⟨left, SfsFs.store_inode_self, href, hreclaim⟩).mono fun r hr => ?_
    exact ⟨hr.1, StepFacts.of_settled hr.2 hkeeps (h.pending_eq_zero hlast) hnode href
      (Or.inr ⟨fun _ => by simp, Or.inl hholder⟩)⟩

theorem reclaimSynced_safe (h : ReclaimInv s) (hholder : s.holder = some (FsHolder.syncing a))
    (ret : Int) : Safe (reclaimSynced s a ret) fun r =>
      ReclaimInv r.1 ∧ StepFacts s (SfsOp.synced ret) r.1 r.2 := by
  obtain ⟨node, hnode, href, hreclaim⟩ := h.reclaiming a (Or.inr hholder)
  have hlast : s.Last a := ⟨node, hnode, href, hreclaim⟩
  unfold reclaimSynced
  rw [SfsFs.deref_eq_done hnode, bind_done]
  split
  · next hret =>
      let again : Inode := { node with dirty := true }
      have hino : again.ino = node.ino := rfl
      exact h.reclaimFail hnode href hreclaim hino href hreclaim hret (Or.inr rfl) (Or.inr hholder)
  · refine (reclaimFinish_safe h hlast).mono fun r hr => ?_
    have hkeeps : s.Keeps s := fun _ => Iff.rfl
    exact ⟨hr.1, StepFacts.of_settled hr.2 hkeeps (h.pending_eq_zero hlast) hnode href
      (Or.inr ⟨fun _ => by simp, Or.inr hholder⟩)⟩

/-! ## Runs -/

/-- Every step that can be taken keeps the invariant, and touches no memory that is not an inode. -/
theorem ReclaimInv.step_safe (h : ReclaimInv s) (op : SfsOp) (hop : s.Possible op) :
    Safe (s.step op) fun r => ReclaimInv r.1 ∧ StepFacts s op r.1 r.2 := by
  have hsame : ∀ t : SfsState, t.fs.SameInodes s.fs → (∀ a, op ≠ SfsOp.enterReclaim a) →
      (∀ a, s.Reclaiming a → t.holder = s.holder) → StepFacts s op t none := fun t ht =>
    StepFacts.of_keeps (SfsState.Keeps.of_same ht) (Or.inl rfl)
  have hwrite : ∀ a node node', s.fs.inode a = some node → (∀ a, op ≠ SfsOp.enterReclaim a) →
      StepFacts s op { s with fs := s.fs.store a node' } none := fun a node node' hnode hop' =>
    StepFacts.of_keeps (SfsState.Keeps.of_store hnode (SfsFs.SameInodes.refl _)) (Or.inl rfl) hop'
      fun _ _ => rfl
  cases op with
  | loadInode ino =>
      refine ⟨h.frame (SfsFs.SameInodes.refl _) ?_ h.reading fun _ hb => hb,
        hsame _ (SfsFs.SameInodes.refl _) (fun _ => by simp) fun _ _ => rfl⟩
      intro b
      change (s.waiting ++ [FsCall.loadInode ino]).count (FsCall.reclaim b) = _
      rw [List.count_append]
      simp [SfsState.pending]
  | refInc a =>
      obtain ⟨node, hnode, hpos⟩ := hop
      simp only [SfsState.step, SfsFs.deref_eq_done hnode, bind_done]
      have hino : (inodeRefInc node).ino = node.ino := rfl
      exact ⟨h.write hnode hino rfl (Or.inr ⟨hpos, rfl⟩), hwrite _ _ _ hnode fun _ => by simp⟩
  | refDec a => exact (inodeRefDec_safe h hop).bind fun _ ht => ht
  | enterLoad ino dinOk => exact loadStart_safe h hop.1 ino dinOk
  | enterReclaim a => exact reclaimStart_safe h hop.1 hop.2
  | loaded ret din mem =>
      obtain ⟨⟨ino, hholder⟩, hmem⟩ := hop
      simp only [SfsState.step, hholder]
      exact loadFinish_safe h hholder ret din mem hmem
  | truncated ret din dirty =>
      obtain ⟨a, hholder⟩ := hop
      simp only [SfsState.step, hholder]
      exact reclaimTruncated_safe h hholder ret din dirty
  | synced ret =>
      obtain ⟨a, hholder⟩ := hop
      simp only [SfsState.step, hholder]
      exact reclaimSynced_safe h hholder ret
  | sync =>
      have hholder : s.holder = none := hop
      refine ⟨h.frame (SfsFs.SameInodes.refl _) (fun _ => rfl) ?_ ?_,
        hsame _ (SfsFs.SameInodes.refl _) (fun _ => by simp) fun a ha =>
          absurd ha (SfsState.not_reclaiming (fun _ => by simp [hholder]) a)⟩
      · intro i hi
        cases hi
      · rintro b (hb | hb) <;> cases hb
  | syncEnd =>
      have hholder : s.holder = some FsHolder.sync := hop
      exact ⟨h.unlock, hsame _ (SfsFs.SameInodes.refl _) (fun _ => by simp) fun a ha =>
        absurd ha (SfsState.not_reclaiming (fun _ => by simp [hholder]) a)⟩
  | use a din dirty openCount =>
      obtain ⟨node, hnode⟩ : ∃ node, s.fs.inode a = some node := by
        rcases hop with ⟨node, hnode, -⟩ | ⟨-, hin⟩
        · exact ⟨node, hnode⟩
        · exact Option.ne_none_iff_exists'.1 ((h.tables.mem_list a).1 hin)
      simp only [SfsState.step, SfsFs.deref_eq_done hnode, bind_done]
      let used : Inode := { node with din := din, dirty := dirty, openCount := openCount }
      have hino : used.ino = node.ino := rfl
      exact ⟨h.write hnode hino rfl (Or.inl rfl), hwrite _ _ _ hnode fun _ => by simp⟩
  | blocks freemap super superDirty =>
      exact ⟨h.frame ⟨rfl, rfl, rfl⟩ (fun _ => rfl) h.reading fun _ hb => hb,
        hsame _ ⟨rfl, rfl, rfl⟩ (fun _ => by simp) fun _ _ => rfl⟩

theorem ReclaimInv.step {label : SfsOp × Option FsEvent} (h : ReclaimInv s) (hs : SfsStep s label t) :
    ReclaimInv t ∧ StepFacts s label.1 t label.2 :=
  (h.step_safe label.1 hs.1).of_done hs.2

theorem ReclaimInv.run {labels : List (SfsOp × Option FsEvent)} (h : ReclaimInv s)
    (hrun : Run SfsStep s labels t) : ReclaimInv t :=
  hrun.invariant ReclaimInv (fun _ _ _ hinv hs => (hinv.step hs).1) h

/-- The step makes an inode at the address. -/
def Creates (label : SfsOp × Option FsEvent) (a : Nat) : Prop :=
  ∃ din node, label.1 = SfsOp.loaded 0 din (some (a, node))

/-- The call that the step ends hands the inode at the address out, or has tried to reclaim it. -/
def Touches (label : SfsOp × Option FsEvent) (a : Nat) : Prop :=
  (∃ ino, label.2 = some (FsEvent.loaded ino a)) ∨ ∃ ret, label.2 = some (FsEvent.reclaimed a ret)

/-- After an inode has been freed no call hands it out and no call frees it, until `alloc_inode` returns
its address again. -/
theorem ReclaimInv.stays_free {labels : List (SfsOp × Option FsEvent)} (h : ReclaimInv s)
    (hrun : Run SfsStep s labels t) (hfree : s.fs.inode a = none)
    (hnew : ∀ l ∈ labels, ¬ Creates l a) : t.fs.inode a = none ∧ ∀ l ∈ labels, ¬ Touches l a := by
  induction hrun with
  | nil => exact ⟨hfree, by simp⟩
  | @snoc labels l t u hrun hs ih =>
      obtain ⟨hgone, htouch⟩ := ih fun l hl => hnew l (by simp [hl])
      obtain ⟨-, hfacts⟩ := (h.run hrun).step hs
      have hgone' : u.fs.inode a = none := by
        by_contra hc
        exact hnew l (by simp) (hfacts.created a hgone hc)
      refine ⟨hgone', fun l' hl' => ?_⟩
      rcases List.mem_append.1 hl' with hl' | hl'
      · exact htouch l' hl'
      · obtain rfl : l' = l := by simpa using hl'
        rintro (⟨ino, he⟩ | ⟨ret, he⟩)
        · obtain ⟨node, hnode, -⟩ := hfacts.loaded ino a he
          rw [hgone'] at hnode
          cases hnode
        · exact (hfacts.reclaimed a ret he).1 hgone

/-- The reclaim protocol, in every state that calls on a mounted file system lead to: `reclaim_count` is
the number of reclaims that have been issued and have not taken effect, and one more while the inode is
referenced; an inode number has one linked inode; no step touches freed memory; what a step frees was
neither referenced nor to be reclaimed again, and stays out of reach. -/
theorem reclaim_protocol {labels : List (SfsOp × Option FsEvent)} (hfs : fs.Mounted)
    (hrun : Run SfsStep fs.start labels s) :
    (∀ a node, s.fs.inode a = some node →
      node.reclaimCount = s.pending a + if 0 < node.refCount then 1 else 0) ∧
    (∀ i, (s.fs.hashList i).Nodup ∧ ∀ j a b node node', a ∈ s.fs.hashList i → b ∈ s.fs.hashList j →
      s.fs.inode a = some node → s.fs.inode b = some node' → node.ino = node'.ino → i = j ∧ a = b) ∧
    (∀ i a, a ∈ s.fs.hashList i → s.fs.inode a ≠ none) ∧
    (∀ op, s.Possible op → s.step op ≠ wrap) ∧
    (∀ op e t, SfsStep s (op, e) t → StepFacts s op t e) ∧
    ∀ labels' t a, Run SfsStep s labels' t → s.fs.inode a = none → (∀ l ∈ labels', ¬ Creates l a) →
      t.fs.inode a = none ∧ ∀ l ∈ labels', ¬ Touches l a := by
  have h : ReclaimInv s := hfs.inv.run hrun
  refine ⟨h.count, fun i => ⟨h.tables.hashNodup i, ?_⟩, ?_, ?_, ?_, ?_⟩
  · intro j a b node node' ha hb hnode hnode' hino
    have hab := h.tables.unique a b node node' hnode hnode' hino
    subst hab
    obtain ⟨na, hna, hi⟩ := (h.tables.mem_hash i a).1 ha
    obtain ⟨nb, hnb, hj⟩ := (h.tables.mem_hash j a).1 hb
    rw [hna] at hnb
    cases hnb
    exact ⟨hi.symm.trans hj, rfl⟩
  · intro i a ha
    obtain ⟨node, hnode, -⟩ := (h.tables.mem_hash i a).1 ha
    simp [hnode]
  · exact fun op hop => (h.step_safe op hop).ne_wrap
  · exact fun op e t hs => (h.step hs).2
  · exact fun labels' t a hrun' hfree hnew => h.stays_free hrun' hfree hnew

/-- A small file system after the mount; all its blocks are in use. -/
def smallFs : SfsFs :=
  { super := { magic := 0x2f8dbe2a, blocks := 32, unusedBlocks := 0, info := [] }
    freemap :=
      { nbits := 32768
        map := List.replicate 1024 0
        nbits_le := by rw [List.length_replicate]; decide }
    superDirty := false
    inode := fun _ => none
    inodeList := []
    hashList := fun _ => [] }

theorem smallFs_mounted : smallFs.Mounted := ⟨fun _ => rfl, rfl, fun _ => rfl⟩

/-- An inode of an empty file, with its counters. -/
def emptyInode (refCount reclaimCount : Int) : Inode :=
  { ops := InodeOps.sfsNodeFileops
    refCount := refCount
    openCount := 0
    din :=
      { size := 0, type := sfsTypeFile, nlinks := 1, blocks := 0, direct := fun _ => 0, indirect := 0 }
    ino := 1
    dirty := false
    reclaimCount := reclaimCount }

/-- `smallFs` with one inode at address 7, after one lookup of it more. -/
def sharedFs : SfsFs :=
  ((sfsSetLinks (smallFs.store 7 (emptyInode 1 1)) 7 1).store 7 (emptyInode 0 1)).store 7
    (emptyInode 1 2)

/-- Both references have been dropped, and none of the two reclaims has taken effect. -/
def sharedState : SfsState :=
  { fs := sharedFs.store 7 (emptyInode 0 2)
    waiting := [FsCall.reclaim 7, FsCall.reclaim 7]
    holder := none }

/-- An inode is loaded and dropped; before the reclaim takes effect it is looked up and dropped again. -/
theorem sharedFs_run : Run SfsStep smallFs.start
    [(SfsOp.loadInode 1, none), (SfsOp.enterLoad 1 true, none),
      (SfsOp.loaded 0 (emptyInode 0 0).din (some (7, emptyInode 0 0)), some (FsEvent.loaded 1 7)),
      (SfsOp.refDec 7, none), (SfsOp.loadInode 1, none),
      (SfsOp.enterLoad 1 true, some (FsEvent.loaded 1 7)), (SfsOp.refDec 7, none)]
    sharedState := by
  refine Run.cons (t := ⟨smallFs, [FsCall.loadInode 1], none⟩) ⟨trivial, rfl⟩ ?_
  refine Run.cons (t := ⟨smallFs, [], some (FsHolder.reading 1)⟩) ⟨⟨rfl, by simp⟩, rfl⟩ ?_
  refine Run.cons (t := ⟨sfsSetLinks (smallFs.store 7 (emptyInode 1 1)) 7 1, [], none⟩)
    ⟨⟨⟨1, rfl⟩, fun _ _ _ => rfl⟩, rfl⟩ ?_
  refine Run.cons ⟨⟨emptyInode 1 1, rfl, by decide⟩, rfl⟩ ?_
  refine Run.cons ⟨trivial, rfl⟩ ?_
  refine Run.cons (t := ⟨sharedFs, [FsCall.reclaim 7], none⟩) ⟨⟨rfl, by decide⟩, rfl⟩ ?_
  exact Run.cons ⟨⟨emptyInode 1 2, rfl, by decide⟩, rfl⟩ Run.nil

theorem reclaim_protocol_shared :
    (emptyInode 0 2).reclaimCount =
      sharedState.pending 7 + if 0 < (emptyInode 0 2).refCount then 1 else 0 :=
  (reclaim_protocol smallFs_mounted sharedFs_run).1 7 (emptyInode 0 2) rfl

end TriOS
