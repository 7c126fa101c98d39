import TriOS.Fs.Bitmap
import TriOS.Libs.Error
import TriOS.Library.Hoare

/-!
# sfs_io.c — the blocks of a mounted file system

The device under the file system is a map from block numbers to blocks of bytes, and `requests` says which of
the next requests to the device and to `kmalloc` fail. The inodes in memory stand beside it, by their numbers.
The calls of one file system follow one after the other here, so that the locks are left out.
-/

namespace TriOS
namespace Vfs

/-- `SFS_BLKSIZE` -/
def sfsBlksize : Nat := 4096

/-- `SFS_NDIRECT` -/
def ndirect : Nat := 12

/-- `SFS_BLK_NENTRY` -/
def sfsBlkNentry : Nat := 1024

/-- `SFS_MAX_FILE_SIZE` -/
def sfsMaxFileSize : Nat := 1024 * 1024 * 128

/-- `SFS_MAX_FNAME_LEN` -/
def sfsMaxFnameLen : Nat := 255

/-- `SFS_BLKN_ROOT` -/
def sfsBlknRoot : Nat := 1

/-- `SFS_TYPE_FILE` -/
def typeFile : Nat := 1

/-- `SFS_TYPE_DIR` -/
def typeDir : Nat := 2

/-- `SFS_TYPE_LINK` -/
def typeLink : Nat := 3

/-- The bytes of a disk block. -/
abbrev Block := Nat → UInt8

/-- `struct sfs_disk_inode` -/
structure Din where
  size : Nat
  type : Nat
  nlinks : Nat
  blocks : Nat
  direct : Nat → Nat
  indirect : Nat

/-- `struct sfs_inode` -/
structure Sin where
  din : Din
  dirty : Bool
  reclaimCount : Int

/-- `struct sfs_fs` with its device and the inodes in memory. -/
structure Sfs where
  blocks : Nat
  unusedBlocks : Nat
  superDirty : Bool
  freemap : Bitmap
  disk : Nat → Block
  sin : Nat → Option Sin
  requests : List Nat

/-- How the machine stops: an assertion fails or the kernel panics, an access is undefined, or the bound of a
loop is used up. -/
inductive Halt where
  | panic
  | wrap
  | fuel
  deriving DecidableEq, Repr

/-- Code on a mounted file system. -/
abbrev SfsM := StateT Sfs (Except Halt)

/-- `assert` -/
def SfsM.assert (p : Prop) [Decidable p] : SfsM Unit :=
  if p then pure () else throw Halt.panic

/-- The result of a function of the bitmap. -/
def SfsM.ofOutcome {α : Type} : Outcome α → SfsM α
  | Outcome.done a => pure a
  | Outcome.panic => throw Halt.panic
  | Outcome.wrap => throw Halt.wrap
  | Outcome.fuel => throw Halt.fuel

/-- The answer to the next request; when none is left, the requests are served. -/
def ask : SfsM Nat := do
  let s ← get
  set { s with requests := s.requests.tail }
  pure (s.requests.headD 0)

/-- Whether the next request fails. -/
def fails : SfsM Bool := do
  let answer ← ask
  pure (answer != 0)

/-! ## Bytes -/

/-- The `len` bytes of a block from `offset` on. -/
def Block.bytes (block : Block) (offset len : Nat) : List UInt8 :=
  (List.range len).map fun i => block (offset + i)

/-- A block with other bytes from `offset` on. -/
def Block.put (block : Block) (offset : Nat) (data : List UInt8) : Block := fun i =>
  if offset ≤ i ∧ i < offset + data.length then data.getD (i - offset) 0 else block i

/-- A number of bytes, the lowest first. -/
def leNat : List UInt8 → Nat
  | [] => 0
  | b :: bs => b.toNat + 256 * leNat bs

/-- The lowest bytes of a number. -/
def leBytes : Nat → Nat → List UInt8
  | 0, _ => []
  | len + 1, n => UInt8.ofNat n :: leBytes len (n / 256)

/-- The `struct sfs_disk_inode` in a block. -/
def decodeDin (block : Block) : Din where
  size := leNat (block.bytes 0 4)
  type := leNat (block.bytes 4 2)
  nlinks := leNat (block.bytes 6 2)
  blocks := leNat (block.bytes 8 4)
  direct := fun i => leNat (block.bytes (12 + 4 * i) 4)
  indirect := leNat (block.bytes 60 4)

/-- The bytes of a `struct sfs_disk_inode`. -/
def encodeDin (din : Din) : List UInt8 :=
  leBytes 4 din.size ++ leBytes 2 din.type ++ leBytes 2 din.nlinks ++ leBytes 4 din.blocks ++
    ((List.range ndirect).flatMap fun i => leBytes 4 (din.direct i)) ++ leBytes 4 din.indirect

/-- A C string that starts a field of bytes. -/
def cString (bytes : List UInt8) : List UInt8 :=
  bytes.takeWhile (· != 0)

/-! ## Blocks -/

/-- `dop_io` of the device on one block. -/
def dopIo (blkno : Nat) (write : Bool) (buf : Block) : SfsM (Int × Block) := do
  let failed ← fails
  if failed then pure (-eInval, buf)
  else do
    let s ← get
    if write then do
      set { s with disk := Function.update s.disk blkno buf }
      pure (0, buf)
    else pure (0, s.disk blkno)

/-- `sfs_rwblock_nolock`. The offset of the block in bytes is a 32-bit product. -/
def sfsRwblockNolock (buf : Block) (blkno : Nat) (write check : Bool) : SfsM (Int × Block) := do
  let s ← get
  SfsM.assert ((blkno ≠ 0 ∨ check = false) ∧ blkno < s.blocks)
  dopIo (blkno * sfsBlksize % 2 ^ 32 / sfsBlksize) write buf

/-- `sfs_rwblock`: what was read, or nothing after a write. -/
def sfsRwblock (write : Bool) : Nat → Nat → List UInt8 → SfsM (Int × List UInt8)
  | 0, _, _ => pure (0, [])
  | nblks + 1, blkno, buf => do
      let (ret, block) ← sfsRwblockNolock (fun i => buf.getD i 0) blkno write true
      if ret ≠ 0 then pure (ret, [])
      else do
        let (ret, rest) ← sfsRwblock write nblks (blkno + 1) (buf.drop sfsBlksize)
        pure (ret, if write then [] else block.bytes 0 sfsBlksize ++ rest)

/-- `sfs_rbuf` -/
def sfsRbuf (len blkno offset : Nat) : SfsM (Int × List UInt8) := do
  SfsM.assert (offset < sfsBlksize ∧ offset + len ≤ sfsBlksize)
  let (ret, block) ← sfsRwblockNolock (fun _ => 0) blkno false true
  pure (ret, if ret = 0 then block.bytes offset len else [])

/-- `sfs_wbuf` -/
def sfsWbuf (data : List UInt8) (blkno offset : Nat) : SfsM Int := do
  SfsM.assert (offset < sfsBlksize ∧ offset + data.length ≤ sfsBlksize)
  let (ret, block) ← sfsRwblockNolock (fun _ => 0) blkno false true
  if ret ≠ 0 then pure ret
  else do
    let (ret, _) ← sfsRwblockNolock (block.put offset data) blkno true true
    pure ret

/-- `sfs_clear_block` of one block -/
def sfsClearBlock (blkno : Nat) : SfsM Int := do
  let (ret, _) ← sfsRwblockNolock (fun _ => 0) blkno true true
  pure ret

/-! ## The use of the blocks -/

/-- `sfs_block_inuse` -/
def blockInuse (ino : Nat) : SfsM Bool := do
  let s ← get
  if ino ≠ 0 ∧ ino < s.blocks then do
    let free ← SfsM.ofOutcome (bitmapTest s.freemap ino)
    pure (!free)
  else throw Halt.panic

/-- `sfs_block_alloc`, with the block that it has taken. -/
def sfsBlockAlloc : SfsM (Int × Nat) := do
  let s ← get
  match ← SfsM.ofOutcome (bitmapAlloc s.freemap) with
  | none => pure (-eNoMem, 0)
  | some (ino, freemap) => do
      SfsM.assert (0 < s.unusedBlocks)
      set { s with freemap := freemap, unusedBlocks := s.unusedBlocks - 1, superDirty := true }
      let inuse ← blockInuse ino
      SfsM.assert (inuse = true)
      let ret ← sfsClearBlock ino
      pure (ret, ino)

/-- `sfs_block_free` -/
def blockFree (ino : Nat) : SfsM Unit := do
  let inuse ← blockInuse ino
  SfsM.assert (inuse = true)
  let s ← get
  let freemap ← SfsM.ofOutcome (bitmapFree s.freemap ino)
  set { s with freemap := freemap, unusedBlocks := s.unusedBlocks + 1, superDirty := true }

end Vfs
end TriOS
