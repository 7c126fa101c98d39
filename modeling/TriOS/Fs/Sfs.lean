import TriOS.Fs.Bitmap
import TriOS.Libs.Error
import TriOS.Libs.Hash

/-!
# sfs.h — the simple file system

The data of a mounted file system, the inodes that it has in memory, and the small operations on the
two: the counters of an inode, the links of the inode list and of the hash lists, and the use of a
disk block. An inode in memory is named by its address; `inode a = none` says that no inode is
allocated there, and code that uses such an address ends in `wrap`.
-/

namespace TriOS

open Outcome

/-- `SFS_NDIRECT` -/
def sfsNdirect : Nat := 12

/-- `SFS_TYPE_FILE` -/
def sfsTypeFile : UInt16 := 1

/-- `SFS_TYPE_DIR` -/
def sfsTypeDir : UInt16 := 2

/-- `struct sfs_super` -/
structure SfsSuper where
  magic : UInt32
  blocks : UInt32
  unusedBlocks : UInt32
  info : List UInt8
  deriving DecidableEq, Repr

/-- `struct sfs_disk_inode` -/
structure DiskInode where
  size : UInt32
  type : UInt16
  nlinks : UInt16
  blocks : UInt32
  direct : Fin sfsNdirect → UInt32
  indirect : UInt32
  deriving DecidableEq

/-- The two tables of `struct inode_ops` of this file system. -/
inductive InodeOps where
  | sfsNodeDirops
  | sfsNodeFileops
  deriving DecidableEq, Repr

/-- `struct inode` with the `struct sfs_inode` in it. -/
structure Inode where
  ops : InodeOps
  refCount : Int
  openCount : Int
  din : DiskInode
  ino : UInt32
  dirty : Bool
  reclaimCount : Int
  deriving DecidableEq

/-- `struct sfs_fs`, with the inodes in memory. The lists are given by the addresses of their inodes,
in the order of the list. -/
structure SfsFs where
  super : SfsSuper
  freemap : Bitmap
  superDirty : Bool
  inode : Nat → Option Inode
  inodeList : List Nat
  hashList : Nat → List Nat

/-- The inode at an address. -/
def SfsFs.deref (fs : SfsFs) (a : Nat) : Outcome Inode :=
  match fs.inode a with
  | some node => done node
  | none => wrap

/-- Put another value into the inode at an address. -/
def SfsFs.store (fs : SfsFs) (a : Nat) (node : Inode) : SfsFs :=
  { fs with inode := Function.update fs.inode a (some node) }

/-- `sfs_get_ops` -/
def sfsGetOps (type : UInt16) : Outcome InodeOps :=
  if type = sfsTypeDir then done InodeOps.sfsNodeDirops
  else if type = sfsTypeFile then done InodeOps.sfsNodeFileops
  else panic

/-! ## The counters of an inode -/

/-- `MAX_INODE_COUNT` -/
def maxInodeCount : Int := 0x10000

/-- `inode_check`. The counters are unbounded integers. -/
def inodeCheck (node : Inode) : Outcome Unit := do
  assert (node.openCount ≤ node.refCount ∧ 0 ≤ node.openCount)
  assert (node.refCount < maxInodeCount ∧ node.openCount < maxInodeCount)

/-- `inode_ref_inc` -/
def inodeRefInc (node : Inode) : Inode :=
  { node with refCount := node.refCount + 1 }

/-- `inode_init` -/
def inodeInit (node : Inode) (ops : InodeOps) : Inode :=
  inodeRefInc { node with refCount := 0, openCount := 0, ops := ops }

/-- `inode_kill`: the memory of the inode is freed. -/
def inodeKill (fs : SfsFs) (a : Nat) : Outcome SfsFs := do
  let node ← fs.deref a
  assert (node.refCount = 0)
  assert (node.openCount = 0)
  pure { fs with inode := Function.update fs.inode a none }

/-! ## The lists of inodes -/

/-- `sin_hashfn` -/
def sinHashfn (ino : UInt32) : Nat :=
  (hash32 ino 10).toNat

/-- `sfs_set_links` of the inode at an address, with its number. -/
def sfsSetLinks (fs : SfsFs) (a : Nat) (ino : UInt32) : SfsFs :=
  let i := sinHashfn ino
  { fs with
    inodeList := a :: fs.inodeList
    hashList := Function.update fs.hashList i (a :: fs.hashList i) }

/-- `sfs_remove_links`: the inode is taken out of the lists that it is in. -/
def sfsRemoveLinks (fs : SfsFs) (a : Nat) : SfsFs :=
  { fs with
    inodeList := fs.inodeList.erase a
    hashList := fun i => (fs.hashList i).erase a }

/-! ## The use of a disk block -/

/-- `sfs_block_inuse` -/
def sfsBlockInuse (fs : SfsFs) (ino : UInt32) : Outcome Bool := do
  if ino ≠ 0 ∧ ino < fs.super.blocks then
    let free ← bitmapTest fs.freemap ino.toNat
    pure (!free)
  else panic

/-- `sfs_block_free` -/
def sfsBlockFree (fs : SfsFs) (ino : UInt32) : Outcome SfsFs := do
  let inuse ← sfsBlockInuse fs ino
  assert (inuse = true)
  let freemap ← bitmapFree fs.freemap ino.toNat
  pure
    { fs with
      freemap := freemap
      super := { fs.super with unusedBlocks := fs.super.unusedBlocks + 1 }
      superDirty := true }

end TriOS
