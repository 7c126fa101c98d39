import TriOS.Fs.SfsIo
import TriOS.Libs.Hash

/-!
# mksfs.c — building an image

The program that writes the image of a file system. Its blocks of entries and its inodes are kept in memory, in
hash lists, until the file system is closed. They are named here by the order in which they were allocated, since
nothing is given back. A `bug` ends the program, as a failed assertion does.
-/

namespace TriOS
namespace Mksfs

open Outcome
open Vfs (Block leBytes sfsBlksize ndirect sfsBlkNentry)

/-- `SFS_MAGIC` -/
def sfsMagic : Nat := 0x2f8dbe2a

/-- `SFS_MAX_NBLKS` -/
def sfsMaxNblks : Nat := 1024 * 512

/-- `SFS_BLKBITS` -/
def sfsBlkbits : Nat := 32768

/-- `HASH_LIST_SIZE` -/
def hashListSize : Nat := 1024

/-- `SFS_BLKN_SUPER` -/
def sfsBlknSuper : Nat := 0

/-- `SFS_BLKN_ROOT` -/
def sfsBlknRoot : Nat := 1

/-- `SFS_BLKN_FREEMAP` -/
def sfsBlknFreemap : Nat := 2

/-- `hash32` -/
def hash32 (val : Nat) : Nat := (TriOS.hash32 (UInt32.ofNat val) 10).toNat

/-- `hash64`: only the low word counts. -/
def hash64 (val : Nat) : Nat := hash32 (val % 2 ^ 32)

/-- The words of a block. -/
abbrev Words := Nat → UInt32

/-- `struct cache_block` -/
structure CacheBlock where
  ino : Nat
  cache : Words

/-- `struct cache_inode`, with its `struct inode`. -/
structure CacheInode where
  size : Nat
  type : Nat
  nlinks : Nat
  blocks : Nat
  direct : Nat → Nat
  indirect : Nat
  dbIndirect : Nat
  real : Nat
  ino : Nat
  nblks : Nat
  l1 : Option Nat
  l2 : Option Nat

/-- `struct sfs_fs`, with the image and with the blocks and inodes that were allocated. -/
structure Fs where
  superBlocks : Nat
  unusedBlocks : Nat
  info : List UInt8
  ninos : Nat
  nextIno : Nat
  cacheBlocks : List CacheBlock
  cacheInodes : List CacheInode
  blocks : Nat → List Nat
  inodes : Nat → List Nat
  img : Nat → Block

/-- `sfs_alloc_ino` -/
def sfsAllocIno (s : Fs) : Outcome (Fs × Nat) :=
  if s.nextIno < s.ninos then
    done ({ s with unusedBlocks := s.unusedBlocks - 1, nextIno := s.nextIno + 1 }, s.nextIno)
  else panic

/-- `(ino != 0) ? ino : sfs_alloc_ino(sfs)` -/
def inoOrNew (s : Fs) (ino : Nat) : Outcome (Fs × Nat) :=
  if ino ≠ 0 then done (s, ino) else sfsAllocIno s

/-! ## The caches -/

/-- `alloc_cache_block`: the list goes by the argument, and not by the number of the new block. -/
def allocCacheBlock (s : Fs) (ino : Nat) : Outcome (Fs × Nat) := do
  let (s, number) ← inoOrNew s ino
  let cb := s.cacheBlocks.length
  let head := hash32 ino
  pure
    ({ s with
        cacheBlocks := s.cacheBlocks ++ [{ ino := number, cache := fun _ => 0 }]
        blocks := Function.update s.blocks head (cb :: s.blocks head) },
      cb)

/-- The number of a block in the cache. -/
def Fs.blockIno (s : Fs) (cb : Nat) : Option Nat := s.cacheBlocks[cb]?.map CacheBlock.ino

/-- `search_cache_block` -/
def searchCacheBlock (s : Fs) (ino : Nat) : Option Nat :=
  (s.blocks (hash32 ino)).find? fun cb => s.blockIno cb = some ino

/-- `alloc_cache_inode` -/
def allocCacheInode (s : Fs) (real ino type : Nat) : Outcome (Fs × Nat) := do
  let (s, number) ← inoOrNew s ino
  let ci := s.cacheInodes.length
  let head := hash64 real
  let inode : CacheInode :=
    { size := 0, type := type, nlinks := 0, blocks := 0, direct := fun _ => 0, indirect := 0, dbIndirect := 0
      real := real, ino := number, nblks := 0, l1 := none, l2 := none }
  pure
    ({ s with
        cacheInodes := s.cacheInodes ++ [inode]
        inodes := Function.update s.inodes head (ci :: s.inodes head) },
      ci)

/-- `search_cache_inode` -/
def searchCacheInode (s : Fs) (real : Nat) : Option Nat :=
  (s.inodes (hash64 real)).find? fun ci => s.cacheInodes[ci]?.map CacheInode.real = some real

/-- `update_cache`, with the block and the number that are stored. -/
def updateCache (s : Fs) (cbp : Option Nat) (ino : Nat) : Outcome (Fs × Nat × Nat) :=
  if ino = 0 then do
    let (s, cb) ← allocCacheBlock s 0
    match s.blockIno cb with
    | some ino => pure (s, cb, ino)
    | none => wrap
  else
    match cbp.filter fun cb => s.blockIno cb = some ino with
    | some cb => done (s, cb, ino)
    | none =>
        match searchCacheBlock s ino with
        | some cb => done (s, cb, ino)
        | none => panic

/-- A word of a block in the cache is written. -/
def Fs.storeWord (s : Fs) (cb i : Nat) (value : UInt32) : Fs :=
  { s with
    cacheBlocks := s.cacheBlocks.modify cb fun block => { block with cache := Function.update block.cache i value } }

/-- An inode in the cache is changed, but for its number. -/
def Fs.storeInode (s : Fs) (ci : Nat) (f : CacheInode → CacheInode) : Fs :=
  { s with cacheInodes := s.cacheInodes.modify ci fun inode => { f inode with ino := inode.ino, real := inode.real } }

/-! ## Writing -/

/-- A block with bytes at its start and zeros behind them. -/
def bytesBlock (data : List UInt8) : Block := fun i => data.getD i 0

/-- The bytes of the words of a block, the lowest first. -/
def wordsBlock (words : Words) : Block := fun i => UInt8.ofNat ((words (i / 4)).toNat / 256 ^ (i % 4))

/-- `write_block` -/
def writeBlock (s : Fs) (data : Block) (ino : Nat) : Outcome Fs := do
  assert (ino < s.ninos)
  pure { s with img := Function.update s.img ino data }

/-- Calls of `write_block`. -/
def writeBlocks (s : Fs) : List (Nat × Block) → Outcome Fs
  | [] => done s
  | (ino, data) :: rest => writeBlock s data ino >>= fun s => writeBlocks s rest

/-- The bytes of a `struct inode`. -/
def encodeInode (inode : CacheInode) : List UInt8 :=
  leBytes 4 inode.size ++ leBytes 2 inode.type ++ leBytes 2 inode.nlinks ++ leBytes 4 inode.blocks ++
    ((List.range ndirect).flatMap fun i => leBytes 4 (inode.direct i)) ++ leBytes 4 inode.indirect ++
    leBytes 4 inode.dbIndirect

/-- The bytes of the `super` of a file system. -/
def encodeSuper (s : Fs) : List UInt8 :=
  leBytes 4 sfsMagic ++ leBytes 4 s.superBlocks ++ leBytes 4 s.unusedBlocks ++ s.info

/-- `create_sfs` for a file of `size` bytes. What `malloc` leaves behind the end of the name is `rest`. -/
def createSfs (size : Nat) (rest : List UInt8) (img : Nat → Block) : Outcome Fs :=
  let blocks := size / sfsBlksize % 2 ^ 32
  let ninos := if sfsMaxNblks < blocks then sfsMaxNblks else blocks
  let nextIno := sfsBlknFreemap + (ninos + sfsBlkbits - 1) / sfsBlkbits
  if ninos ≤ nextIno then panic
  else do
    let name : List UInt8 := [115, 105, 109, 112, 108, 101, 32, 102, 105, 108, 101, 32, 115, 121, 115, 116, 101, 109, 0]
    let s : Fs :=
      { superBlocks := ninos, unusedBlocks := ninos - nextIno, info := (name ++ rest).take 32, ninos := ninos
        nextIno := nextIno, cacheBlocks := [], cacheInodes := [], blocks := fun _ => [], inodes := fun _ => []
        img := img }
    let (s, _) ← allocCacheInode s 0 sfsBlknRoot Vfs.typeDir
    pure s

/-- The loop of `close_sfs` that sets the bits of a block of the map: `rounds` more from `j` on. -/
def setBits (data : Words) : Nat → Nat → Words
  | 0, _ => data
  | rounds + 1, j => setBits (Function.update data (j / 32) (data (j / 32) ||| bitMask (j % 32))) rounds (j + 1)

/-- The block of the map of free blocks whose first bit is that of block `i`. -/
def freemapWords (s : Fs) (i : Nat) : Words :=
  if s.nextIno < i + sfsBlkbits then
    let start := if i < s.nextIno then s.nextIno - i else 0
    let stop := if s.ninos < i + sfsBlkbits then s.ninos - i else sfsBlkbits
    setBits (fun _ => 0) (stop - start) start
  else fun _ => 0

/-- What `close_sfs` writes to the map of free blocks. -/
def freemapWrites (s : Fs) : List (Nat × Block) :=
  (List.range ((s.ninos + sfsBlkbits - 1) / sfsBlkbits)).map fun k =>
    (sfsBlknFreemap + k, wordsBlock (freemapWords s (k * sfsBlkbits)))

/-- `flush_cache_block` and `flush_cache_inode` for the lists with the number `i`. -/
def flushWrites (s : Fs) (i : Nat) : List (Nat × Block) :=
  (s.blocks i).filterMap (fun cb => s.cacheBlocks[cb]?.map fun block => (block.ino, wordsBlock block.cache)) ++
    (s.inodes i).filterMap fun ci => s.cacheInodes[ci]?.map fun inode => (inode.ino, bytesBlock (encodeInode inode))

/-- `close_sfs` -/
def closeSfs (s : Fs) : Outcome Fs :=
  writeBlocks s (freemapWrites s ++ (sfsBlknSuper, bytesBlock (encodeSuper s)) ::
    (List.range hashListSize).flatMap (flushWrites s))

end Mksfs
end TriOS
