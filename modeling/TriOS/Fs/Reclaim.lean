import TriOS.Fs.Sfs

/-!
# sfs_inode.c, inode.c — loading and reclaiming inodes

`sfs_load_inode` and `sfs_reclaim` take the semaphore `fs_sem` and may wait for the device, or for the
semaphore of an inode, while they hold it. A call is cut at these places. `waiting` are the calls that
have been made and have not got `fs_sem` yet, in any order; `holder` says where the call that has it
waits. Between two cuts no other process runs.
-/

namespace TriOS

open Outcome

/-- A call that waits for `fs_sem`. -/
inductive FsCall where
  | loadInode (ino : UInt32)
  | reclaim (a : Nat)
  deriving DecidableEq, Repr

/-- Where the call that holds `fs_sem` waits. -/
inductive FsHolder where
  | reading (ino : UInt32)
  | truncating (a : Nat)
  | syncing (a : Nat)
  | sync
  deriving DecidableEq, Repr

/-- The file system with the calls on it. -/
structure SfsState where
  fs : SfsFs
  waiting : List FsCall
  holder : Option FsHolder

/-- How a call ends: an inode is handed out, or the call returns a code. -/
inductive FsEvent where
  | loaded (ino : UInt32) (a : Nat)
  | loadFailed (ino : UInt32) (ret : Int)
  | reclaimed (a : Nat) (ret : Int)
  deriving DecidableEq, Repr

/-- The call that holds `fs_sem` gives it back and ends. -/
def SfsState.unlock (s : SfsState) (fs : SfsFs) (e : FsEvent) : SfsState × Option FsEvent :=
  ({ s with fs := fs, holder := none }, some e)

/-- The call that holds `fs_sem` waits. -/
def SfsState.block (s : SfsState) (fs : SfsFs) (h : FsHolder) : SfsState × Option FsEvent :=
  ({ s with fs := fs, holder := some h }, none)

/-! ## lookup_sfs_nolock and sfs_load_inode -/

/-- The loop of `lookup_sfs_nolock`. -/
def searchIno (fs : SfsFs) (ino : UInt32) : List Nat → Outcome (Option Nat)
  | [] => pure none
  | a :: as => do
      let node ← fs.deref a
      if node.ino = ino then pure (some a) else searchIno fs ino as

/-- The inode that `lookup_sfs_nolock` hands out. -/
def Inode.lookedUp (node : Inode) : Inode :=
  let node := inodeRefInc node
  if node.refCount = 1 then { node with reclaimCount := node.reclaimCount + 1 } else node

/-- `lookup_sfs_nolock` -/
def lookupSfsNolock (fs : SfsFs) (ino : UInt32) : Outcome (Option Nat × SfsFs) := do
  match ← searchIno fs ino (fs.hashList (sinHashfn ino)) with
  | none => pure (none, fs)
  | some a => do
      let node ← fs.deref a
      pure (some a, fs.store a node.lookedUp)

/-- `sfs_load_inode` from `lock_sfs_fs` to `sfs_rbuf`. `dinOk` says whether `kmalloc` has memory. -/
def loadStart (s : SfsState) (ino : UInt32) (dinOk : Bool) :
    Outcome (SfsState × Option FsEvent) := do
  match ← lookupSfsNolock s.fs ino with
  | (some a, fs) => pure (s.unlock fs (FsEvent.loaded ino a))
  | (none, fs) =>
      if dinOk then do
        let inuse ← sfsBlockInuse fs ino
        assert (inuse = true)
        pure (s.block fs (FsHolder.reading ino))
      else pure (s.unlock fs (FsEvent.loadFailed ino (-eNoMem)))

/-- `sfs_create_inode` at the address that `alloc_inode` returns, in memory that holds `node`. -/
def sfsCreateInode (fs : SfsFs) (din : DiskInode) (ino : UInt32) (a : Nat) (node : Inode) :
    Outcome SfsFs := do
  let ops ← sfsGetOps din.type
  let node := inodeInit node ops
  pure (fs.store a { node with din := din, ino := ino, dirty := false, reclaimCount := 1 })

/-- `sfs_load_inode` from the return of `sfs_rbuf` on. `mem` is what `alloc_inode` returns. -/
def loadFinish (s : SfsState) (ino : UInt32) (ret : Int) (din : DiskInode)
    (mem : Option (Nat × Inode)) : Outcome (SfsState × Option FsEvent) := do
  if ret ≠ 0 then pure (s.unlock s.fs (FsEvent.loadFailed ino ret))
  else do
    assert (din.nlinks ≠ 0)
    match mem with
    | none => pure (s.unlock s.fs (FsEvent.loadFailed ino (-eNoMem)))
    | some (a, node) => do
        let fs ← sfsCreateInode s.fs din ino a node
        pure (s.unlock (sfsSetLinks fs a ino) (FsEvent.loaded ino a))

/-! ## inode_ref_dec and sfs_reclaim -/

/-- `inode_ref_dec` up to the `lock_sfs_fs` of `sfs_reclaim`. -/
def inodeRefDec (s : SfsState) (a : Nat) : Outcome SfsState := do
  let node ← s.fs.deref a
  assert (0 < node.refCount)
  let node := { node with refCount := node.refCount - 1 }
  let s := { s with fs := s.fs.store a node }
  if node.refCount = 0 then do
    inodeCheck node
    pure { s with waiting := s.waiting ++ [FsCall.reclaim a] }
  else pure s

/-- The blocks that `sfs_reclaim` frees. -/
def freeInodeBlocks (fs : SfsFs) (node : Inode) : Outcome SfsFs := do
  if node.din.nlinks = 0 then
    let fs ← sfsBlockFree fs node.ino
    if node.din.indirect ≠ 0 then sfsBlockFree fs node.din.indirect else pure fs
  else pure fs

/-- `sfs_reclaim` from `sfs_remove_links` on. -/
def reclaimFinish (s : SfsState) (a : Nat) : Outcome (SfsState × Option FsEvent) := do
  let node ← s.fs.deref a
  let fs ← freeInodeBlocks (sfsRemoveLinks s.fs a) node
  let fs ← inodeKill fs a
  pure (s.unlock fs (FsEvent.reclaimed a 0))

/-- `sfs_reclaim` from the test of `dirty` on. `sfs_fsync` clears `dirty` and writes the inode. -/
def reclaimSync (s : SfsState) (a : Nat) : Outcome (SfsState × Option FsEvent) := do
  let node ← s.fs.deref a
  if node.dirty then do
    inodeCheck node
    pure (s.block (s.fs.store a { node with dirty := false }) (FsHolder.syncing a))
  else reclaimFinish s a

/-- `sfs_reclaim` from `lock_sfs_fs` on. A directory has no `vop_truncate`. -/
def reclaimStart (s : SfsState) (a : Nat) : Outcome (SfsState × Option FsEvent) := do
  let node ← s.fs.deref a
  assert (0 < node.reclaimCount)
  let node := { node with reclaimCount := node.reclaimCount - 1 }
  let s := { s with fs := s.fs.store a node }
  if node.reclaimCount ≠ 0 ∨ node.refCount ≠ 0 then
    pure (s.unlock s.fs (FsEvent.reclaimed a (-eBusy)))
  else if node.din.nlinks = 0 then do
    assert (node.ops = InodeOps.sfsNodeFileops)
    inodeCheck node
    pure (s.block s.fs (FsHolder.truncating a))
  else reclaimSync s a

/-- `sfs_reclaim` from the return of `vop_truncate` on; `din` and `dirty` are what that has left. -/
def reclaimTruncated (s : SfsState) (a : Nat) (ret : Int) (din : DiskInode) (dirty : Bool) :
    Outcome (SfsState × Option FsEvent) := do
  let node ← s.fs.deref a
  let s := { s with fs := s.fs.store a { node with din := din, dirty := dirty } }
  if ret ≠ 0 then pure (s.unlock s.fs (FsEvent.reclaimed a ret)) else reclaimSync s a

/-- `sfs_reclaim` from the return of `vop_fsync` on. -/
def reclaimSynced (s : SfsState) (a : Nat) (ret : Int) : Outcome (SfsState × Option FsEvent) := do
  let node ← s.fs.deref a
  if ret ≠ 0 then
    pure (s.unlock (s.fs.store a { node with dirty := true }) (FsEvent.reclaimed a ret))
  else reclaimFinish s a

/-! ## Steps -/

/-- The steps. `enterLoad` and `enterReclaim` are the moments at which a call gets `fs_sem`; `loaded`,
`truncated` and `synced` the moments at which the call that has it goes on. `use` is another operation
on an inode, `blocks` another operation on the map of free blocks. -/
inductive SfsOp where
  | loadInode (ino : UInt32)
  | refInc (a : Nat)
  | refDec (a : Nat)
  | enterLoad (ino : UInt32) (dinOk : Bool)
  | enterReclaim (a : Nat)
  | loaded (ret : Int) (din : DiskInode) (mem : Option (Nat × Inode))
  | truncated (ret : Int) (din : DiskInode) (dirty : Bool)
  | synced (ret : Int)
  | sync
  | syncEnd
  | use (a : Nat) (din : DiskInode) (dirty : Bool) (openCount : Int)
  | blocks (freemap : Bitmap) (super : SfsSuper) (superDirty : Bool)

/-- What a step does. -/
def SfsState.step (s : SfsState) : SfsOp → Outcome (SfsState × Option FsEvent)
  | SfsOp.loadInode ino => pure ({ s with waiting := s.waiting ++ [FsCall.loadInode ino] }, none)
  | SfsOp.refInc a => do
      let node ← s.fs.deref a
      pure ({ s with fs := s.fs.store a (inodeRefInc node) }, none)
  | SfsOp.refDec a => do
      let s ← inodeRefDec s a
      pure (s, none)
  | SfsOp.enterLoad ino dinOk =>
      loadStart { s with waiting := s.waiting.erase (FsCall.loadInode ino) } ino dinOk
  | SfsOp.enterReclaim a =>
      reclaimStart { s with waiting := s.waiting.erase (FsCall.reclaim a) } a
  | SfsOp.loaded ret din mem =>
      match s.holder with
      | some (FsHolder.reading ino) => loadFinish s ino ret din mem
      | _ => panic
  | SfsOp.truncated ret din dirty =>
      match s.holder with
      | some (FsHolder.truncating a) => reclaimTruncated s a ret din dirty
      | _ => panic
  | SfsOp.synced ret =>
      match s.holder with
      | some (FsHolder.syncing a) => reclaimSynced s a ret
      | _ => panic
  | SfsOp.sync => pure (s.block s.fs FsHolder.sync)
  | SfsOp.syncEnd => pure ({ s with holder := none }, none)
  | SfsOp.use a din dirty openCount => do
      let node ← s.fs.deref a
      let node := { node with din := din, dirty := dirty, openCount := openCount }
      pure ({ s with fs := s.fs.store a node }, none)
  | SfsOp.blocks freemap super superDirty =>
      let fs := { s.fs with freemap := freemap, super := super, superDirty := superDirty }
      pure ({ s with fs := fs }, none)

/-- Some process holds a reference to the inode. -/
def SfsState.Referenced (s : SfsState) (a : Nat) : Prop :=
  ∃ node, s.fs.inode a = some node ∧ 0 < node.refCount

/-- When a step can be taken. A call gets `fs_sem` when no other has it; `kmalloc` returns memory that is
not in use; only a process that holds a reference drops it, passes it on or uses the inode, except for
`sfs_sync`, which walks the list of inodes. -/
def SfsState.Possible (s : SfsState) : SfsOp → Prop
  | SfsOp.loadInode _ => True
  | SfsOp.refInc a => s.Referenced a
  | SfsOp.refDec a => s.Referenced a
  | SfsOp.enterLoad ino _ => s.holder = none ∧ FsCall.loadInode ino ∈ s.waiting
  | SfsOp.enterReclaim a => s.holder = none ∧ FsCall.reclaim a ∈ s.waiting
  | SfsOp.loaded _ _ mem =>
      (∃ ino, s.holder = some (FsHolder.reading ino)) ∧
        ∀ a node, mem = some (a, node) → s.fs.inode a = none
  | SfsOp.truncated _ _ _ => ∃ a, s.holder = some (FsHolder.truncating a)
  | SfsOp.synced _ => ∃ a, s.holder = some (FsHolder.syncing a)
  | SfsOp.sync => s.holder = none
  | SfsOp.syncEnd => s.holder = some FsHolder.sync
  | SfsOp.use a _ _ _ =>
      s.Referenced a ∨ s.holder = some FsHolder.sync ∧ a ∈ s.fs.inodeList
  | SfsOp.blocks _ _ _ => True

/-- One step, with the call that it ends. -/
def SfsStep (s : SfsState) (label : SfsOp × Option FsEvent) (t : SfsState) : Prop :=
  s.Possible label.1 ∧ s.step label.1 = done (t, label.2)

/-- What `sfs_do_mount` leaves: no inode is in memory. -/
structure SfsFs.Mounted (fs : SfsFs) : Prop where
  inode : ∀ a, fs.inode a = none
  inodeList : fs.inodeList = []
  hashList : ∀ i, fs.hashList i = []

/-- The file system after the mount, before any call on it. -/
def SfsFs.start (fs : SfsFs) : SfsState :=
  { fs := fs, waiting := [], holder := none }

/-- The calls of `sfs_reclaim` on an inode that have been issued and have not taken effect. -/
def SfsState.pending (s : SfsState) (a : Nat) : Nat :=
  s.waiting.count (FsCall.reclaim a)

end TriOS
