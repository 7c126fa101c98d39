import TriOS.Fs.SfsInode

/-!
# inode.h — inodes and the dispatch through their tables

A node is named by what it stands for and by its table of operations, which is set when the node is made and
stays. `vopOp` is the macro `__vop_op`: it stops with `Stop.noOp` when the operation that is selected is
missing, and every other way to stop the machine is a `Stop.halt`.
-/

namespace TriOS
namespace Vfs

/-- The operations of `struct inode_ops`. -/
inductive Vop where
  | vopOpen
  | vopClose
  | vopRead
  | vopWrite
  | vopFstat
  | vopFsync
  | vopNamefile
  | vopGetdirentry
  | vopReclaim
  | vopGettype
  | vopTryseek
  | vopTruncate
  | vopCreate
  | vopLookup
  | vopIoctl
  deriving DecidableEq, Repr

/-- The tables of operations. -/
inductive OpTable where
  | sfsNodeDirops
  | sfsNodeFileops
  | devNodeOps
  deriving DecidableEq, Repr

/-- The operations of a table that are not `NULL`. -/
def OpTable.ops : OpTable → List Vop
  | sfsNodeDirops =>
      [.vopOpen, .vopClose, .vopFstat, .vopFsync, .vopNamefile, .vopGetdirentry, .vopReclaim, .vopGettype,
        .vopLookup]
  | sfsNodeFileops =>
      [.vopOpen, .vopClose, .vopRead, .vopWrite, .vopFstat, .vopFsync, .vopReclaim, .vopGettype, .vopTryseek,
        .vopTruncate]
  | devNodeOps =>
      [.vopOpen, .vopClose, .vopRead, .vopWrite, .vopFstat, .vopIoctl, .vopGettype, .vopTryseek, .vopLookup]

/-- The devices of `dev_init`. -/
inductive Device where
  | stdin
  | stdout
  | disk0
  deriving DecidableEq, Repr

/-- An inode: of the file system with its number, a directory or a regular file, or of a device. -/
inductive Node where
  | sfs (ino : Nat) (dir : Bool)
  | dev (d : Device)
  deriving DecidableEq, Repr

/-- `in_ops` -/
def Node.inOps : Node → OpTable
  | Node.sfs _ true => OpTable.sfsNodeDirops
  | Node.sfs _ false => OpTable.sfsNodeFileops
  | Node.dev _ => OpTable.devNodeOps

/-- The status of an entry of a table of open files. -/
inductive FdStatus where
  | none
  | init
  | opened
  | closed
  deriving DecidableEq, Repr

/-- `struct file` -/
structure File where
  status : FdStatus
  readable : Bool
  writable : Bool
  pos : Int
  node : Option Node
  openCount : Int
  deriving DecidableEq

/-- `struct files_struct` -/
structure FilesStruct where
  pwd : Option Node
  fdArray : Nat → File

/-- An entry of `vdev_list`. -/
structure Vdev where
  devname : List UInt8
  devnode : Device
  mounted : Bool
  mountable : Bool

/-- What the calls of the processes do not change: the devices, the file system that the machine was booted
from, and the number of blocks of `disk0`. -/
structure Env where
  vdevs : List Vdev
  bootfs : Option Node
  diskBlocks : Nat

/-- The state of the file system layers. -/
structure State where
  sfs : Sfs
  ref : Node → Int
  opens : Node → Int
  files : Nat → FilesStruct

/-- How a system call stops the machine. -/
inductive Stop where
  | noOp (table : OpTable) (sym : Vop)
  | halt (h : Halt)
  deriving DecidableEq, Repr

/-- The code of the file system layers. -/
abbrev Code := StateT State (Except Stop)

/-- Code on the mounted file system. -/
def onSfs {α : Type} (f : SfsM α) : Code α :=
  Hoare.zoom State.sfs (fun s sfs => { s with sfs := sfs }) Stop.halt f

/-- `assert` -/
def Code.assert (p : Prop) [Decidable p] : Code Unit :=
  if p then pure () else throw (Stop.halt Halt.panic)

/-- `kmalloc`, whether it succeeds. -/
def kmallocOk : Code Bool := do
  let failed ← onSfs fails
  pure (!failed)

/-! ## Dispatch and counters -/

/-- `MAX_INODE_COUNT` -/
def maxCount : Int := 0x10000

/-- `inode_check` -/
def checkNode (node : Node) : Code Unit := do
  let s ← get
  Code.assert (s.opens node ≤ s.ref node ∧ 0 ≤ s.opens node)
  Code.assert (s.ref node < maxCount ∧ s.opens node < maxCount)

/-- `__vop_op` -/
def vopOp (node : Node) (sym : Vop) : Code Unit := do
  if sym ∈ node.inOps.ops then checkNode node else throw (Stop.noOp node.inOps sym)

/-- An operation that the table of the node does not have is not run. -/
def noCode {α : Type} : Code α := throw (Stop.halt Halt.wrap)

/-- `inode_ref_inc` -/
def refInc (node : Node) : Code Unit :=
  modify fun s => { s with ref := Function.update s.ref node (s.ref node + 1) }

/-- `inode_open_inc` -/
def openInc (node : Node) : Code Unit :=
  modify fun s => { s with opens := Function.update s.opens node (s.opens node + 1) }

/-- `vop_fsync` -/
def vopFsync (node : Node) : Code Int := do
  vopOp node Vop.vopFsync
  match node with
  | Node.sfs ino _ => onSfs (sfsFsync ino)
  | Node.dev _ => noCode

/-- `vop_truncate` -/
def vopTruncate (node : Node) (len : Int) : Code Int := do
  vopOp node Vop.vopTruncate
  match node with
  | Node.sfs ino _ => onSfs (sfsTruncfile ino len)
  | Node.dev _ => noCode

/-- `vop_close`: `sfs_close` or `dev_close`, whose devices return 0. -/
def vopClose (node : Node) : Code Int := do
  vopOp node Vop.vopClose
  match node with
  | Node.sfs _ _ => vopFsync node
  | Node.dev _ => pure 0

/-- `inode_open_dec` -/
def openDec (node : Node) : Code Unit := do
  let s ← get
  Code.assert (0 < s.opens node)
  set { s with opens := Function.update s.opens node (s.opens node - 1) }
  if s.opens node - 1 = 0 then do
    let _ ← vopClose node
    pure ()
  else pure ()

/-- The blocks that `sfs_reclaim` frees for an inode without links. -/
def freeUnlinked (ino : Nat) : SfsM Unit := do
  let sin ← derefSin ino
  if sin.din.nlinks = 0 then do
    blockFree ino
    if sin.din.indirect ≠ 0 then blockFree sin.din.indirect else pure ()
  else pure ()

/-- The end of `sfs_reclaim`: the inode leaves the memory. -/
def reclaimEnd (ino : Nat) (dir : Bool) : Code Int := do
  onSfs (freeUnlinked ino)
  let s ← get
  Code.assert (s.ref (Node.sfs ino dir) = 0)
  Code.assert (s.opens (Node.sfs ino dir) = 0)
  onSfs (modify fun fs => { fs with sin := Function.update fs.sin ino none })
  pure 0

/-- `sfs_reclaim` -/
def sfsReclaim (ino : Nat) (dir : Bool) : Code Int := do
  let node := Node.sfs ino dir
  let sin ← onSfs (derefSin ino)
  Code.assert (0 < sin.reclaimCount)
  onSfs (setSin ino { sin with reclaimCount := sin.reclaimCount - 1 })
  let s ← get
  if sin.reclaimCount - 1 ≠ 0 ∨ s.ref node ≠ 0 then pure (-eBusy)
  else do
    let ret ← (if sin.din.nlinks = 0 then vopTruncate node 0 else pure 0)
    if ret ≠ 0 then pure ret
    else do
      let sin ← onSfs (derefSin ino)
      let ret ← (if sin.dirty = true then vopFsync node else pure 0)
      if ret ≠ 0 then pure ret
      else reclaimEnd ino dir

/-- `vop_reclaim` -/
def vopReclaim (node : Node) : Code Int := do
  vopOp node Vop.vopReclaim
  match node with
  | Node.sfs ino dir => sfsReclaim ino dir
  | Node.dev _ => noCode

/-- `inode_ref_dec` -/
def refDec (node : Node) : Code Unit := do
  let s ← get
  Code.assert (0 < s.ref node)
  set { s with ref := Function.update s.ref node (s.ref node - 1) }
  if s.ref node - 1 = 0 then do
    let _ ← vopReclaim node
    pure ()
  else pure ()

/-! ## Inodes of the file system -/

/-- `lookup_sfs_nolock`. The table of a node goes by the type of its inode, which no code changes. -/
def lookupSfsNode (ino : Nat) : Code (Option Node) := do
  let s ← get
  match s.sfs.sin ino with
  | none => pure none
  | some sin => do
      let node := Node.sfs ino (decide (sin.din.type = typeDir))
      refInc node
      (if s.ref node + 1 = 1 then onSfs (setSin ino { sin with reclaimCount := sin.reclaimCount + 1 }) else pure ())
      pure (some node)

/-- `sfs_create_inode` and `sfs_set_links`; `sfs_get_ops` panics for any type but the two. -/
def createNode (ino : Nat) (din : Din) : Code (Except Int Node) := do
  let ok ← kmallocOk
  if ok = true then do
    Code.assert (din.type = typeDir ∨ din.type = typeFile)
    let node := Node.sfs ino (decide (din.type = typeDir))
    onSfs (setSin ino { din := din, dirty := false, reclaimCount := 1 })
    modify fun s => { s with
      ref := Function.update s.ref node 1
      opens := Function.update s.opens node 0 }
    pure (Except.ok node)
  else pure (Except.error (-eNoMem))

/-- `sfs_load_inode` -/
def sfsLoadInode (ino : Nat) : Code (Except Int Node) := do
  match ← lookupSfsNode ino with
  | some node => pure (Except.ok node)
  | none => do
      let ok ← kmallocOk
      if ok = true then do
        let inuse ← onSfs (blockInuse ino)
        Code.assert (inuse = true)
        let (ret, block) ← onSfs (do
          let (ret, bytes) ← sfsRbuf 64 ino 0
          pure (ret, fun i => bytes.getD i 0))
        if ret ≠ 0 then pure (Except.error ret)
        else do
          let din := decodeDin block
          Code.assert (din.nlinks ≠ 0)
          createNode ino din
      else pure (Except.error (-eNoMem))

/-- `sfs_lookup_once` -/
def sfsLookupOnce (ino : Nat) (name : List UInt8) : Code (Except Int Node) := do
  match ← onSfs (sfsDirentSearchNolock ino name) with
  | Except.error ret => pure (Except.error ret)
  | Except.ok found => sfsLoadInode found

/-- `sfs_lookup` -/
def sfsLookup (ino : Nat) (dir : Bool) (path : List UInt8) : Code (Except Int Node) := do
  Code.assert (path ≠ [] ∧ path.head? ≠ some 47)
  refInc (Node.sfs ino dir)
  let sin ← onSfs (derefSin ino)
  if sin.din.type ≠ typeDir then do
    refDec (Node.sfs ino dir)
    pure (Except.error (-eNotdir))
  else do
    let found ← sfsLookupOnce ino path
    refDec (Node.sfs ino dir)
    pure found

/-- `vop_lookup`: `sfs_lookup` or `dev_lookup`. -/
def vopLookup (node : Node) (path : List UInt8) : Code (Except Int Node) := do
  vopOp node Vop.vopLookup
  match node with
  | Node.sfs ino dir => sfsLookup ino dir path
  | Node.dev _ =>
      if path ≠ [] then pure (Except.error (-eNoent))
      else do
        refInc node
        pure (Except.ok node)

/-- `vop_create`: no table has it. -/
def vopCreate (dir : Node) (_name : List UInt8) (_excl : Bool) : Code (Except Int Node) := do
  vopOp dir Vop.vopCreate
  noCode

/-! ## Flags and types -/

/-- `open_flags & O_ACCMODE` -/
def accmode (flags : Nat) : Nat := flags % 4

/-- `O_RDONLY` -/
def oRdonly : Nat := 0

/-- `O_WRONLY` -/
def oWronly : Nat := 1

/-- `O_RDWR` -/
def oRdwr : Nat := 2

/-- `O_CREAT` -/
def oCreat (flags : Nat) : Bool := flags.testBit 2

/-- `O_EXCL` -/
def oExcl (flags : Nat) : Bool := flags.testBit 3

/-- `O_TRUNC` -/
def oTrunc (flags : Nat) : Bool := flags.testBit 4

/-- `O_APPEND` -/
def oAppend (flags : Nat) : Bool := flags.testBit 5

/-- The types of `stat.h`. -/
inductive FileType where
  | reg
  | dir
  | lnk
  | chr
  | blk
  deriving DecidableEq, Repr

/-- `struct stat` -/
structure Stat where
  mode : FileType
  nlinks : Nat
  blocks : Nat
  size : Nat

/-! ## The operations of open files -/

/-- `d_open` of a device. -/
def dopOpen (d : Device) (flags : Nat) : Int :=
  match d with
  | Device.stdin => if flags ≠ oRdonly then -eInval else 0
  | Device.stdout => if flags ≠ oWronly then -eInval else 0
  | Device.disk0 => 0

/-- `vop_open`: `sfs_opendir`, `sfs_openfile` or `dev_open`. -/
def vopOpen (node : Node) (flags : Nat) : Code Int := do
  vopOp node Vop.vopOpen
  match node with
  | Node.sfs _ true =>
      pure (if accmode flags ≠ oRdonly then -eIsdir else if oAppend flags then -eIsdir else 0)
  | Node.sfs _ false => pure 0
  | Node.dev d =>
      pure (if oCreat flags || oTrunc flags || oExcl flags || oAppend flags then -eInval else dopOpen d flags)

/-- `d_blocks` -/
def Device.blocks (env : Env) : Device → Nat
  | Device.stdin => 0
  | Device.stdout => 0
  | Device.disk0 => env.diskBlocks

/-- `d_blocksize` -/
def Device.blocksize : Device → Nat
  | Device.stdin => 1
  | Device.stdout => 1
  | Device.disk0 => 4096

/-- `vop_gettype`: `sfs_gettype` or `dev_gettype`. -/
def vopGettype (env : Env) (node : Node) : Code (Except Int FileType) := do
  vopOp node Vop.vopGettype
  match node with
  | Node.sfs ino _ => do
      let sin ← onSfs (derefSin ino)
      if sin.din.type = typeDir then pure (Except.ok FileType.dir)
      else if sin.din.type = typeFile then pure (Except.ok FileType.reg)
      else if sin.din.type = typeLink then pure (Except.ok FileType.lnk)
      else throw (Stop.halt Halt.panic)
  | Node.dev d => pure (Except.ok (if 0 < d.blocks env then FileType.blk else FileType.chr))

/-- `vop_fstat`: `sfs_fstat` or `dev_fstat`. -/
def vopFstat (env : Env) (node : Node) : Code (Except Int Stat) := do
  vopOp node Vop.vopFstat
  match ← vopGettype env node with
  | Except.error ret => pure (Except.error ret)
  | Except.ok mode =>
      match node with
      | Node.sfs ino _ => do
          let sin ← onSfs (derefSin ino)
          pure (Except.ok ⟨mode, sin.din.nlinks, sin.din.blocks, sin.din.size⟩)
      | Node.dev d => pure (Except.ok ⟨mode, 1, d.blocks env, d.blocks env * d.blocksize⟩)

/-- `vop_tryseek`: `sfs_tryseek` or `dev_tryseek`. -/
def vopTryseek (env : Env) (node : Node) (pos : Int) : Code Int := do
  vopOp node Vop.vopTryseek
  match node with
  | Node.sfs ino _ =>
      if pos < 0 ∨ sfsMaxFileSize ≤ pos then pure (-eInval)
      else do
        let sin ← onSfs (derefSin ino)
        if (sin.din.size : Int) < pos then vopTruncate node pos else pure 0
  | Node.dev d =>
      pure (if 0 < d.blocks env ∧ pos % d.blocksize = 0 ∧ 0 ≤ pos ∧ pos < d.blocks env * d.blocksize then 0
        else -eInval)

/-- `dev_stdin_read`: how many characters come, and which, is the answer of the console. -/
def stdinRead : Nat → SfsM (List UInt8)
  | 0 => pure []
  | count + 1 => do
      let c ← ask
      let rest ← stdinRead count
      pure (UInt8.ofNat c :: rest)

/-- The loop of `disk0_io`. An error of the disk is a panic. -/
def disk0Loop (write : Bool) : Nat → Nat → List UInt8 → SfsM (List UInt8)
  | 0, _, _ => pure []
  | nblks + 1, blkno, buf => do
      let failed ← fails
      SfsM.assert (failed = false)
      let s ← get
      if write = true then do
        set { s with disk := Function.update s.disk blkno fun i => buf.getD i 0 }
        let rest ← disk0Loop write nblks (blkno + 1) (buf.drop sfsBlksize)
        pure ((List.range sfsBlksize).map (fun i => buf.getD i 0) ++ rest)
      else do
        let rest ← disk0Loop write nblks (blkno + 1) buf
        pure ((s.disk blkno).bytes 0 sfsBlksize ++ rest)

/-- `dop_io`: `stdin_io`, `stdout_io` or `disk0_io`, with the bytes that were moved. -/
def dopDevIo (env : Env) (d : Device) (buf : List UInt8) (offset : Int) (len : Nat) (write : Bool) :
    SfsM (Int × List UInt8) :=
  match d with
  | Device.stdin =>
      if write = true then pure (-eInval, [])
      else do
        let count ← ask
        let bytes ← stdinRead (min count len)
        pure (bytes.length, bytes)
  | Device.stdout => pure (if write = true then (0, buf) else (-eInval, []))
  | Device.disk0 =>
      let blkno := offset.toNat / sfsBlksize
      let nblks := len / sfsBlksize
      if offset % sfsBlksize ≠ 0 ∨ len % sfsBlksize ≠ 0 then pure (-eInval, [])
      else if env.diskBlocks < blkno + nblks then pure (-eInval, [])
      else do
        let bytes ← disk0Loop write nblks blkno buf
        pure (0, bytes)

/-- `vop_read`: `sfs_read` or `dev_read`. -/
def vopRead (env : Env) (node : Node) (len : Nat) (offset : Int) : Code (Int × List UInt8) := do
  vopOp node Vop.vopRead
  match node with
  | Node.sfs ino _ => onSfs (sfsIoNolock ino [] offset len false)
  | Node.dev d => onSfs (dopDevIo env d [] offset len false)

/-- `vop_write`: `sfs_write` or `dev_write`. -/
def vopWrite (env : Env) (node : Node) (buf : List UInt8) (offset : Int) : Code (Int × List UInt8) := do
  vopOp node Vop.vopWrite
  match node with
  | Node.sfs ino _ => onSfs (sfsIoNolock ino buf offset buf.length true)
  | Node.dev d => onSfs (dopDevIo env d buf offset buf.length true)

/-- `vop_getdirentry`: `sfs_getdirentry`. -/
def vopGetdirentry (node : Node) (offset : Int) : Code (Except Int (List UInt8)) := do
  vopOp node Vop.vopGetdirentry
  match node with
  | Node.sfs ino _ => onSfs (direntryAt ino offset)
  | Node.dev _ => noCode

/-- The loop of `sfs_namefile`, which ends after at most `rounds` rounds: every round needs room for a name.
The names are collected from the last to the first. -/
def namefileLoop : Nat → Nat → Bool → Nat → List UInt8 → Code (Except Int (List UInt8))
  | 0, _, _, _, _ => throw (Stop.halt Halt.fuel)
  | rounds + 1, ino, dir, resid, name => do
      let node := Node.sfs ino dir
      match ← sfsLookupOnce ino [46, 46] with
      | Except.error ret => do
          refDec node
          pure (Except.error ret)
      | Except.ok parent => do
          refDec node
          if node = parent then do
            refDec node
            pure (Except.ok name)
          else
            match parent with
            | Node.dev _ => noCode
            | Node.sfs pino pdir => do
                let sin ← onSfs (derefSin pino)
                Code.assert (ino ≠ pino ∧ sin.din.type = typeDir)
                match ← onSfs (sfsDirentFindinoNolock pino ino) with
                | Except.error ret => do
                    refDec parent
                    pure (Except.error ret)
                | Except.ok entry =>
                    if resid < entry.length + 1 then do
                      refDec parent
                      pure (Except.error (-eNoMem))
                    else
                      namefileLoop rounds pino pdir (resid - (entry.length + 1)) (entry ++ 47 :: name)

/-- `vop_namefile`: `sfs_namefile` with room for `resid` bytes. -/
def vopNamefile (node : Node) (resid : Nat) : Code (Except Int (List UInt8)) := do
  vopOp node Vop.vopNamefile
  match node with
  | Node.sfs ino dir => do
      let ok ← (if resid ≤ 2 then pure false else kmallocOk)
      if ok = true then do
        refInc node
        namefileLoop (resid + 1) ino dir (resid - 2) []
      else pure (Except.error (-eNoMem))
  | Node.dev _ => noCode

end Vfs
end TriOS
