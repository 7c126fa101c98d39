import TriOS.Fs.SfsIo

/-!
# sfs_inode.c — the data of an inode

The block map of an inode, reading and writing, truncation, and the entries of a directory. `n` is the number
of the inode, which is in memory.
-/

namespace TriOS
namespace Vfs

/-- The inode in memory with a number. -/
def derefSin (n : Nat) : SfsM Sin := do
  let s ← get
  match s.sin n with
  | some sin => pure sin
  | none => throw Halt.wrap

/-- Put another value into an inode in memory. -/
def setSin (n : Nat) (sin : Sin) : SfsM Unit :=
  modify fun s => { s with sin := Function.update s.sin n (some sin) }

/-- Change the data of an inode in memory. -/
def modifyDin (n : Nat) (f : Din → Din) (dirty : Bool) : SfsM Unit := do
  let sin ← derefSin n
  setSin n { sin with din := f sin.din, dirty := sin.dirty || dirty }

/-! ## The block map -/

/-- The exit of `sfs_bmap_get_sub_nolock` for a failure: a new entry block is given back. -/
def bmapCleanup (entp ent : Nat) (ret : Int) : SfsM (Int × Nat × Nat) := do
  (if ent ≠ entp then blockFree ent else pure ())
  pure (ret, entp, 0)

/-- The second half of `sfs_bmap_get_sub_nolock`: a new block in the entry block `ent`. -/
def bmapNewBlock (entp ent index : Nat) : SfsM (Int × Nat × Nat) := do
  let (ret, ino) ← sfsBlockAlloc
  if ret ≠ 0 then bmapCleanup entp ent ret
  else do
    let ret ← sfsWbuf (leBytes 4 ino) ent (index * 4)
    if ret ≠ 0 then do
      blockFree ino
      bmapCleanup entp ent ret
    else pure (0, ent, ino)

/-- `sfs_bmap_get_sub_nolock`, with the new entry block and the block that was looked for. -/
def sfsBmapGetSubNolock (entp index : Nat) (create : Bool) : SfsM (Int × Nat × Nat) := do
  SfsM.assert (index < sfsBlkNentry)
  if entp ≠ 0 then do
    let (ret, bytes) ← sfsRbuf 4 entp (index * 4)
    if ret ≠ 0 then pure (ret, entp, 0)
    else if leNat bytes ≠ 0 ∨ create = false then pure (0, entp, leNat bytes)
    else bmapNewBlock entp entp index
  else if create = false then pure (0, 0, 0)
  else do
    let (ret, ent) ← sfsBlockAlloc
    if ret ≠ 0 then pure (ret, entp, 0)
    else bmapNewBlock entp ent index

/-- The exit of `sfs_bmap_get_nolock` -/
def bmapOut (ino : Nat) : SfsM (Int × Nat) := do
  if ino = 0 then pure (0, ino)
  else do
    let inuse ← blockInuse ino
    SfsM.assert (inuse = true)
    pure (0, ino)

/-- `sfs_bmap_get_nolock` -/
def sfsBmapGetNolock (n index : Nat) (create : Bool) : SfsM (Int × Nat) := do
  let sin ← derefSin n
  if index < ndirect then
    let ino := sin.din.direct index
    if ino = 0 ∧ create = true then do
      let (ret, ino) ← sfsBlockAlloc
      if ret ≠ 0 then pure (ret, 0)
      else do
        modifyDin n (fun din => { din with direct := Function.update din.direct index ino }) true
        bmapOut ino
    else bmapOut ino
  else if index - ndirect < sfsBlkNentry then do
    let (ret, ent, ino) ← sfsBmapGetSubNolock sin.din.indirect (index - ndirect) create
    if ret ≠ 0 then pure (ret, 0)
    else if ent ≠ sin.din.indirect then do
      SfsM.assert (sin.din.indirect = 0)
      modifyDin n (fun din => { din with indirect := ent }) true
      bmapOut ino
    else bmapOut ino
  else throw Halt.panic

/-- `sfs_bmap_free_sub_nolock` -/
def sfsBmapFreeSubNolock (ent index : Nat) : SfsM Int := do
  let inuse ← blockInuse ent
  SfsM.assert (inuse = true ∧ index < sfsBlkNentry)
  let (ret, bytes) ← sfsRbuf 4 ent (index * 4)
  if ret ≠ 0 then pure ret
  else if leNat bytes ≠ 0 then do
    let ret ← sfsWbuf (leBytes 4 0) ent (index * 4)
    if ret ≠ 0 then pure ret
    else do
      blockFree (leNat bytes)
      pure 0
  else pure 0

/-- `sfs_bmap_free_nolock` -/
def sfsBmapFreeNolock (n index : Nat) : SfsM Int := do
  let sin ← derefSin n
  if index < ndirect then
    if sin.din.direct index ≠ 0 then do
      blockFree (sin.din.direct index)
      modifyDin n (fun din => { din with direct := Function.update din.direct index 0 }) true
      pure 0
    else pure 0
  else if index - ndirect < sfsBlkNentry then
    if sin.din.indirect ≠ 0 then sfsBmapFreeSubNolock sin.din.indirect (index - ndirect)
    else pure 0
  else pure 0

/-- `sfs_bmap_load_nolock` -/
def sfsBmapLoadNolock (n index : Nat) : SfsM (Int × Nat) := do
  let sin ← derefSin n
  SfsM.assert (index ≤ sin.din.blocks)
  let create := decide (index = sin.din.blocks)
  let (ret, ino) ← sfsBmapGetNolock n index create
  if ret ≠ 0 then pure (ret, 0)
  else do
    let inuse ← blockInuse ino
    SfsM.assert (inuse = true)
    (if create = true then modifyDin n (fun din => { din with blocks := din.blocks + 1 }) false else pure ())
    pure (0, ino)

/-- `sfs_bmap_truncate_nolock` -/
def sfsBmapTruncateNolock (n : Nat) : SfsM Int := do
  let sin ← derefSin n
  SfsM.assert (sin.din.blocks ≠ 0)
  let ret ← sfsBmapFreeNolock n (sin.din.blocks - 1)
  if ret ≠ 0 then pure ret
  else do
    modifyDin n (fun din => { din with blocks := din.blocks - 1 }) true
    pure 0

/-! ## Reading and writing -/

/-- `sfs_rbuf` or `sfs_wbuf` of a part of a block of the inode, with what was read or written. -/
def ioPart (n : Nat) (buf : List UInt8) (blkno blkoff size : Nat) (write : Bool) : SfsM (Int × List UInt8) := do
  let (ret, ino) ← sfsBmapLoadNolock n blkno
  if ret ≠ 0 then pure (ret, [])
  else if write = true then do
    let data := (List.range size).map fun i => buf.getD i 0
    let ret ← sfsWbuf data ino blkoff
    pure (ret, if ret = 0 then data else [])
  else sfsRbuf size ino blkoff

/-- `sfs_rblock` or `sfs_wblock` of whole blocks: the block that was looked up is not the one that is used. -/
def ioBlocks (n : Nat) (buf : List UInt8) (blkno nblks : Nat) (write : Bool) : SfsM (Int × List UInt8) := do
  let (ret, _) ← sfsBmapLoadNolock n blkno
  if ret < 0 then pure (ret, [])
  else do
    let (ret, data) ← sfsRwblock write nblks blkno buf
    let moved := if write = true then (List.range (nblks * sfsBlksize)).map fun i => buf.getD i 0 else data
    pure (ret, if ret < 0 then [] else moved)

/-- The exit of `sfs_io_nolock` -/
def ioOut (n offset : Nat) (ret : Int) (data : List UInt8) : SfsM (Int × List UInt8) := do
  let sin ← derefSin n
  (if sin.din.size < offset + data.length then
      modifyDin n (fun din => { din with size := offset + data.length }) true
    else pure ())
  pure (ret, data)

/-- The three parts of `sfs_io_nolock`, after its checks. -/
def ioParts (n : Nat) (buf : List UInt8) (offset endpos : Nat) (write : Bool) : SfsM (Int × List UInt8) := do
  let blkno := offset / sfsBlksize
  let nblks := endpos / sfsBlksize - blkno
  let blkoff := offset % sfsBlksize
  let size := if nblks ≠ 0 then sfsBlksize - blkoff else endpos - offset
  let (ret, first) ← (if blkoff ≠ 0 then ioPart n buf blkno blkoff size write else pure (0, []))
  if ret ≠ 0 ∨ blkoff ≠ 0 ∧ nblks = 0 then ioOut n offset ret first
  else do
    let blkno := if blkoff ≠ 0 then blkno + 1 else blkno
    let nblks := if blkoff ≠ 0 then nblks - 1 else nblks
    let (ret, whole) ← (if 0 < nblks then ioBlocks n (buf.drop first.length) blkno nblks write else pure (0, []))
    if ret < 0 then ioOut n offset ret (first ++ whole)
    else do
      let blkno := blkno + nblks
      let size := endpos % sfsBlksize
      let (ret, last) ← (if size ≠ 0 then ioPart n (buf.drop (first ++ whole).length) blkno 0 size write
        else pure (ret, []))
      ioOut n offset ret (first ++ whole ++ last)

/-- `sfs_io_nolock`, with the bytes that were read or written. -/
def sfsIoNolock (n : Nat) (buf : List UInt8) (offset : Int) (len : Nat) (write : Bool) :
    SfsM (Int × List UInt8) := do
  let sin ← derefSin n
  SfsM.assert (sin.din.type ≠ typeDir)
  let endpos := offset + len
  if offset < 0 ∨ sfsMaxFileSize ≤ offset ∨ endpos < offset then pure (-eInval, [])
  else if offset = endpos then pure (0, [])
  else
    let offset := offset.toNat
    let endpos := min endpos.toNat sfsMaxFileSize
    if write = true then ioParts n buf offset endpos true
    else if sin.din.size ≤ offset then pure (0, [])
    else ioParts n buf offset (min endpos sin.din.size) false

/-! ## Size -/

/-- `ROUNDUP_DIV(len, SFS_BLKSIZE)` -/
def blocksOf (len : Nat) : Nat := (len + sfsBlksize - 1) / sfsBlksize

/-- The loop of `sfs_truncfile` that adds blocks. -/
def growLoop (n : Nat) : Nat → Nat → SfsM Int
  | 0, _ => pure 0
  | rounds + 1, nblks => do
      let (ret, _) ← sfsBmapLoadNolock n nblks
      if ret ≠ 0 then pure ret else growLoop n rounds (nblks + 1)

/-- The loop of `sfs_truncfile` that takes blocks away. -/
def shrinkLoop (n : Nat) : Nat → SfsM Int
  | 0 => pure 0
  | rounds + 1 => do
      let ret ← sfsBmapTruncateNolock n
      if ret ≠ 0 then pure ret else shrinkLoop n rounds

/-- `sfs_truncfile` -/
def sfsTruncfile (n : Nat) (len : Int) : SfsM Int := do
  if len < 0 ∨ sfsMaxFileSize < len then pure (-eInval)
  else do
    let len := len.toNat
    let sin ← derefSin n
    let tblks := blocksOf len
    if sin.din.size = len then do
      SfsM.assert (tblks = sin.din.blocks)
      pure 0
    else do
      let nblks := sin.din.blocks
      let ret ← (if nblks < tblks then growLoop n (tblks - nblks) nblks else shrinkLoop n (nblks - tblks))
      if ret ≠ 0 then pure ret
      else do
        let sin ← derefSin n
        SfsM.assert (sin.din.blocks = tblks)
        modifyDin n (fun din => { din with size := len }) true
        pure 0

/-- `sfs_fsync` -/
def sfsFsync (n : Nat) : SfsM Int := do
  let sin ← derefSin n
  if sin.dirty = true then do
    setSin n { sin with dirty := false }
    let ret ← sfsWbuf (encodeDin sin.din) n 0
    (if ret ≠ 0 then derefSin n >>= fun sin => setSin n { sin with dirty := true } else pure ())
    pure ret
  else pure 0

/-! ## Directories -/

/-- `sfs_dirent_read_nolock`: the number of the inode and the name of an entry. -/
def sfsDirentReadNolock (n slot : Nat) : SfsM (Int × Nat × List UInt8) := do
  let sin ← derefSin n
  SfsM.assert (sin.din.type = typeDir ∧ slot < sin.din.blocks)
  let (ret, ino) ← sfsBmapLoadNolock n slot
  if ret ≠ 0 then pure (ret, 0, [])
  else do
    let inuse ← blockInuse ino
    SfsM.assert (inuse = true)
    let (ret, bytes) ← sfsRbuf (4 + sfsMaxFnameLen + 1) ino 0
    if ret ≠ 0 then pure (ret, 0, [])
    else pure (0, leNat (bytes.take 4), cString ((bytes.drop 4).take sfsMaxFnameLen))

/-- The loop of `sfs_dirent_search_nolock`: `rounds` more entries from `i` on. -/
def searchLoop (n : Nat) (name : List UInt8) : Nat → Nat → SfsM (Except Int Nat)
  | 0, _ => pure (Except.error (-eNoent))
  | rounds + 1, i => do
      let (ret, ino, entry) ← sfsDirentReadNolock n i
      if ret ≠ 0 then pure (Except.error ret)
      else if ino = 0 then searchLoop n name rounds (i + 1)
      else if name = entry then pure (Except.ok ino)
      else searchLoop n name rounds (i + 1)

/-- `sfs_dirent_search_nolock` -/
def sfsDirentSearchNolock (n : Nat) (name : List UInt8) : SfsM (Except Int Nat) := do
  SfsM.assert (name.length ≤ sfsMaxFnameLen)
  let failed ← fails
  if failed = true then pure (Except.error (-eNoMem))
  else do
    let sin ← derefSin n
    searchLoop n name sin.din.blocks 0

/-- `sfs_dirent_findino_nolock`: `rounds` more entries from `i` on. -/
def findinoLoop (n ino : Nat) : Nat → Nat → SfsM (Except Int (List UInt8))
  | 0, _ => pure (Except.error (-eNoent))
  | rounds + 1, i => do
      let (ret, found, name) ← sfsDirentReadNolock n i
      if ret ≠ 0 then pure (Except.error ret)
      else if found = ino then pure (Except.ok name)
      else findinoLoop n ino rounds (i + 1)

/-- `sfs_dirent_findino_nolock` -/
def sfsDirentFindinoNolock (n ino : Nat) : SfsM (Except Int (List UInt8)) := do
  let sin ← derefSin n
  findinoLoop n ino sin.din.blocks 0

/-- `sfs_getdirentry_sub_nolock`: `rounds` more entries from `i` on. -/
def getdirentryLoop (n : Nat) : Nat → Nat → Nat → SfsM (Except Int (List UInt8))
  | 0, _, _ => pure (Except.error (-eNoent))
  | rounds + 1, i, slot => do
      let (ret, ino, name) ← sfsDirentReadNolock n i
      if ret ≠ 0 then pure (Except.error ret)
      else if ino = 0 then getdirentryLoop n rounds (i + 1) slot
      else if slot = 0 then pure (Except.ok name)
      else getdirentryLoop n rounds (i + 1) (slot - 1)

/-- The body of `sfs_getdirentry`, from the offset to the name. The number of the entry is an `int` that is compared
without its sign. -/
def direntryAt (n : Nat) (offset : Int) : SfsM (Except Int (List UInt8)) := do
  let failed ← fails
  if failed = true then pure (Except.error (-eNoMem))
  else if offset < 0 ∨ offset % (sfsMaxFnameLen + 1 : Nat) ≠ 0 then pure (Except.error (-eInval))
  else do
    let sin ← derefSin n
    let slot := offset.toNat / (sfsMaxFnameLen + 1) % 2 ^ 32
    if sin.din.blocks < slot then pure (Except.error (-eNoent))
    else getdirentryLoop n sin.din.blocks 0 slot

end Vfs
end TriOS
