import TriOS.Fs.Vfs

/-!
# vfsfile.c, file.c, sysfile.c — paths, open files and system calls

`p` is the number of the `struct files_struct` of the process that calls. A path is a C string without its end.
-/

namespace TriOS
namespace Vfs

/-! ## Paths -/

/-- `vfs_get_curdir` -/
def vfsGetCurdir (p : Nat) : Code (Except Int Node) := do
  let s ← get
  match (s.files p).pwd with
  | none => pure (Except.error (-eNoent))
  | some node => do
      refInc node
      pure (Except.ok node)

/-- `fsop_get_root`: `sfs_get_root` panics when the root cannot be loaded. -/
def fsopGetRoot : Code Node := do
  match ← sfsLoadInode sfsBlknRoot with
  | Except.ok node => pure node
  | Except.error _ => throw (Stop.halt Halt.panic)

/-- `vfs_get_root` -/
def vfsGetRoot (env : Env) (devname : List UInt8) : Code (Except Int Node) :=
  match env.vdevs.find? fun vdev => vdev.devname = devname with
  | none => pure (Except.error (-eNoDev))
  | some vdev =>
      if vdev.mounted = true then do
        let root ← fsopGetRoot
        pure (Except.ok root)
      else if vdev.mountable = false then do
        refInc (Node.dev vdev.devnode)
        pure (Except.ok (Node.dev vdev.devnode))
      else pure (Except.error (-eNaDev))

/-- `vfs_get_bootfs` -/
def vfsGetBootfs (env : Env) : Code (Except Int Node) :=
  match env.bootfs with
  | none => pure (Except.error (-eNoent))
  | some node => do
      refInc node
      pure (Except.ok node)

/-- What `get_device` makes of a path: where the lookup starts, the path from there, and the path that the
caller is left with. -/
inductive Start where
  | curdir
  | device (devname : List UInt8)
  | bootfs
  | currentFs
  deriving DecidableEq, Repr

/-- The parsing of `get_device`. The character that ends the scan is the first colon or slash. -/
def parsePath (path : List UInt8) : Start × List UInt8 × List UInt8 :=
  let i := path.findIdx fun c => c = 58 ∨ c = 47
  match path[i]? with
  | none => (Start.curdir, path, path)
  | some c =>
      let rest := (path.drop (i + 1)).dropWhile (· = 47)
      if c = 58 then
        if 0 < i then (Start.device (path.take i), rest, path.take i) else (Start.currentFs, rest, path)
      else if i = 0 then (Start.bootfs, rest, path)
      else (Start.curdir, path, path)

/-- `get_device`, without the paths. The file system of a node that is not a device is the one that is mounted. -/
def getDevice (env : Env) (p : Nat) : Start → Code (Except Int Node)
  | Start.curdir => vfsGetCurdir p
  | Start.device devname => vfsGetRoot env devname
  | Start.bootfs => vfsGetBootfs env
  | Start.currentFs => do
      match ← vfsGetCurdir p with
      | Except.error ret => pure (Except.error ret)
      | Except.ok (Node.dev _) => throw (Stop.halt Halt.panic)
      | Except.ok node => do
          let root ← fsopGetRoot
          refDec node
          pure (Except.ok root)

/-- `vfs_lookup` -/
def vfsLookup (env : Env) (p : Nat) (path : List UInt8) : Code (Except Int Node) := do
  let (start, subpath, _) := parsePath path
  match ← getDevice env p start with
  | Except.error ret => pure (Except.error ret)
  | Except.ok node =>
      if subpath ≠ [] then do
        let found ← vopLookup node subpath
        refDec node
        pure found
      else pure (Except.ok node)

/-- `vfs_lookup_parent`, with the path from the node on. -/
def vfsLookupParent (env : Env) (p : Nat) (path : List UInt8) : Code (Except Int (Node × List UInt8)) := do
  let (start, subpath, _) := parsePath path
  match ← getDevice env p start with
  | Except.error ret => pure (Except.error ret)
  | Except.ok node => pure (Except.ok (node, subpath))

/-- `vfs_close` -/
def vfsClose (node : Node) : Code Unit := do
  openDec node
  refDec node

/-- The end of `vfs_open`, once the node is there. -/
def openNode (node : Node) (flags : Nat) : Code (Except Int Node) := do
  let ret ← vopOpen node flags
  if ret ≠ 0 then do
    refDec node
    pure (Except.error ret)
  else do
    openInc node
    if (oTrunc flags || oCreat flags) = true then do
      let ret ← vopTruncate node 0
      if ret ≠ 0 then do
        openDec node
        refDec node
        pure (Except.error ret)
      else pure (Except.ok node)
    else pure (Except.ok node)

/-- `vfs_open`. The path of a device is cut off at its colon by the first lookup. -/
def vfsOpen (env : Env) (p : Nat) (path : List UInt8) (flags : Nat) : Code (Except Int Node) := do
  if accmode flags ≠ oRdonly ∧ accmode flags ≠ oWronly ∧ accmode flags ≠ oRdwr then pure (Except.error (-eInval))
  else if oTrunc flags = true ∧ accmode flags = oRdonly then pure (Except.error (-eInval))
  else
    match ← vfsLookup env p path with
    | Except.error ret =>
        if ret = -eNoent ∧ oCreat flags = true then do
          match ← vfsLookupParent env p (parsePath path).2.2 with
          | Except.error ret => pure (Except.error ret)
          | Except.ok (dir, name) => do
              match ← vopCreate dir name (oExcl flags) with
              | Except.error _ => throw (Stop.halt Halt.wrap)
              | Except.ok node => openNode node flags
        else pure (Except.error ret)
    | Except.ok node =>
        if oExcl flags = true ∧ oCreat flags = true then pure (Except.error (-eExists))
        else openNode node flags

/-- The old directory of `vfs_set_curdir` -/
def dropDir : Option Node → Code Unit
  | none => pure ()
  | some old => refDec old

/-- `vfs_set_curdir` of a node -/
def vfsSetCurdir (env : Env) (p : Nat) (dir : Node) : Code Int := do
  let s ← get
  if (s.files p).pwd = some dir then pure 0
  else do
    match ← vopGettype env dir with
    | Except.error ret => pure ret
    | Except.ok type =>
        if type ≠ FileType.dir then pure (-eNotdir)
        else do
          refInc dir
          let s ← get
          let files := s.files p
          set { s with files := Function.update s.files p { files with pwd := some dir } }
          dropDir (s.files p).pwd
          pure 0

/-- `vfs_chdir` -/
def vfsChdir (env : Env) (p : Nat) (path : List UInt8) : Code Int := do
  match ← vfsLookup env p path with
  | Except.error ret => pure ret
  | Except.ok node => do
      let ret ← vfsSetCurdir env p node
      refDec node
      pure ret

/-- `vfs_get_devname` -/
def vfsGetDevname (env : Env) : Option (List UInt8) :=
  (env.vdevs.find? fun vdev => vdev.mounted).map Vdev.devname

/-- `vfs_getcwd` with room for `len` bytes. -/
def vfsGetcwd (env : Env) (p len : Nat) : Code (Except Int (List UInt8)) := do
  match ← vfsGetCurdir p with
  | Except.error ret => pure (Except.error ret)
  | Except.ok (Node.dev _) => throw (Stop.halt Halt.panic)
  | Except.ok node =>
      match vfsGetDevname env with
      | none => throw (Stop.halt Halt.wrap)
      | some devname =>
          if len < devname.length + 1 then do
            refDec node
            pure (Except.error (-eNoMem))
          else do
            let name ← vopNamefile node (len - (devname.length + 1))
            refDec node
            pure (name.map fun name => devname ++ 58 :: 47 :: name)

/-! ## Open files -/

/-- `FILES_STRUCT_NENTRY`: what fits in a page behind `struct files_struct`. -/
def filesStructNentry : Nat := (4096 - 48) / 40

/-- A state with another value in an entry of a table of open files. -/
def State.setFile (s : State) (p fd : Nat) (file : File) : State :=
  let files := s.files p
  { s with files := Function.update s.files p { files with fdArray := Function.update files.fdArray fd file } }

/-- Put another value into an entry of the table of open files. -/
def setFile (p fd : Nat) (file : File) : Code Unit :=
  modify fun s => s.setFile p fd file

/-- The entry of the table of open files. -/
def getFile (p fd : Nat) : Code File := do
  let s ← get
  pure ((s.files p).fdArray fd)

/-- `NO_FD` -/
def noFd : Int := -0x9527

/-- The exit of `fd_array_alloc` for a free entry. -/
def fdArrayFound (p fd : Nat) : Code (Except Int Nat) := do
  let file ← getFile p fd
  Code.assert (file.openCount = 0)
  setFile p fd { file with status := FdStatus.init, node := none }
  pure (Except.ok fd)

/-- `fd_array_alloc` -/
def fdArrayAlloc (p : Nat) (fd : Int) : Code (Except Int Nat) := do
  let s ← get
  if fd = noFd then
    match (List.range filesStructNentry).find? fun fd => ((s.files p).fdArray fd).status = FdStatus.none with
    | none => pure (Except.error (-eMaxOpen))
    | some fd => fdArrayFound p fd
  else if 0 ≤ fd ∧ fd < filesStructNentry then
    if ((s.files p).fdArray fd.toNat).status = FdStatus.none then fdArrayFound p fd.toNat
    else pure (Except.error (-eBusy))
  else pure (Except.error (-eInval))

/-- The node of an entry of the table. -/
def fileNode (file : File) : Code Node :=
  match file.node with
  | some node => pure node
  | none => throw (Stop.halt Halt.wrap)

/-- `fd_array_free` -/
def fdArrayFree (p fd : Nat) : Code Unit := do
  let file ← getFile p fd
  Code.assert (file.status = FdStatus.init ∨ file.status = FdStatus.closed)
  Code.assert (file.openCount = 0)
  (if file.status = FdStatus.closed then fileNode file >>= vfsClose else pure ())
  let file ← getFile p fd
  setFile p fd { file with status := FdStatus.none }

/-- `fd_array_acquire` -/
def fdArrayAcquire (p fd : Nat) : Code Unit := do
  let file ← getFile p fd
  Code.assert (file.status = FdStatus.opened)
  setFile p fd { file with openCount := file.openCount + 1 }

/-- `fd_array_release` -/
def fdArrayRelease (p fd : Nat) : Code Unit := do
  let file ← getFile p fd
  Code.assert (file.status = FdStatus.opened ∨ file.status = FdStatus.closed)
  Code.assert (0 < file.openCount)
  setFile p fd { file with openCount := file.openCount - 1 }
  if file.openCount - 1 = 0 then fdArrayFree p fd else pure ()

/-- `fd_array_open` -/
def fdArrayOpen (p fd : Nat) : Code Unit := do
  let file ← getFile p fd
  Code.assert (file.status = FdStatus.init ∧ file.node ≠ none)
  setFile p fd { file with status := FdStatus.opened, openCount := file.openCount + 1 }

/-- `fd_array_close` -/
def fdArrayClose (p fd : Nat) : Code Unit := do
  let file ← getFile p fd
  Code.assert (file.status = FdStatus.opened)
  Code.assert (0 < file.openCount)
  setFile p fd { file with status := FdStatus.closed, openCount := file.openCount - 1 }
  if file.openCount - 1 = 0 then fdArrayFree p fd else pure ()

/-- `fd_array_dup` -/
def fdArrayDup (p target source : Nat) : Code Unit := do
  let a ← getFile p target
  let b ← getFile p source
  Code.assert (a.status = FdStatus.init ∧ b.status = FdStatus.opened)
  let node ← fileNode b
  refInc node
  openInc node
  setFile p target { a with pos := b.pos, readable := b.readable, writable := b.writable, node := some node }
  fdArrayOpen p target

/-- `fd2file` -/
def fd2file (p : Nat) (fd : Int) : Code (Option Nat) := do
  if 0 ≤ fd ∧ fd < filesStructNentry then do
    let file ← getFile p fd.toNat
    if file.status = FdStatus.opened then pure (some fd.toNat) else pure none
  else pure none

/-- The node of an open file. -/
def nodeOf (p fd : Nat) : Code Node := do
  let file ← getFile p fd
  fileNode file

/-- `file_testfd` -/
def fileTestfd (p : Nat) (fd : Int) (readable writable : Bool) : Code Bool := do
  match ← fd2file p fd with
  | none => pure false
  | some fd => do
      let file ← getFile p fd
      pure (!(readable && !file.readable) && !(writable && !file.writable))

/-- The end of `file_open`, once the node is open. -/
def fileOpened (p fd : Nat) (node : Node) (flags : Nat) (pos : Int) : Code Int := do
  let file ← getFile p fd
  setFile p fd
    { file with
      pos := pos
      node := some node
      readable := accmode flags ≠ oWronly
      writable := accmode flags ≠ oRdonly }
  fdArrayOpen p fd
  pure fd

/-- `file_open` -/
def fileOpen (env : Env) (p : Nat) (path : List UInt8) (flags : Nat) : Code Int := do
  if accmode flags ≠ oRdonly ∧ accmode flags ≠ oWronly ∧ accmode flags ≠ oRdwr then pure (-eInval)
  else do
    match ← fdArrayAlloc p noFd with
    | Except.error ret => pure ret
    | Except.ok fd => do
        match ← vfsOpen env p path flags with
        | Except.error ret => do
            fdArrayFree p fd
            pure ret
        | Except.ok node =>
            if oAppend flags = true then do
              match ← vopFstat env node with
              | Except.error ret => do
                  vfsClose node
                  fdArrayFree p fd
                  pure ret
              | Except.ok stat => fileOpened p fd node flags stat.size
            else fileOpened p fd node flags 0

/-- `file_close` -/
def fileClose (p : Nat) (fd : Int) : Code Int := do
  match ← fd2file p fd with
  | none => pure (-eInval)
  | some fd => do
      fdArrayClose p fd
      pure 0

/-- The end of `file_read` and `file_write`: the position moves on. -/
def fileMoved (p fd copied : Nat) : Code Unit := do
  let file ← getFile p fd
  (if file.status = FdStatus.opened then setFile p fd { file with pos := file.pos + copied } else pure ())
  fdArrayRelease p fd

/-- `file_read`, with the bytes that were read. -/
def fileRead (env : Env) (p : Nat) (fd : Int) (len : Nat) : Code (Int × List UInt8) := do
  match ← fd2file p fd with
  | none => pure (-eInval, [])
  | some fd => do
      let file ← getFile p fd
      if file.readable = false then pure (-eInval, [])
      else do
        fdArrayAcquire p fd
        let node ← nodeOf p fd
        let (ret, bytes) ← vopRead env node len file.pos
        fileMoved p fd bytes.length
        pure (ret, bytes)

/-- `file_write`, with the number of bytes that were written. -/
def fileWrite (env : Env) (p : Nat) (fd : Int) (buf : List UInt8) : Code (Int × Nat) := do
  match ← fd2file p fd with
  | none => pure (-eInval, 0)
  | some fd => do
      let file ← getFile p fd
      if file.writable = false then pure (-eInval, 0)
      else do
        fdArrayAcquire p fd
        let node ← nodeOf p fd
        let (ret, bytes) ← vopWrite env node buf file.pos
        fileMoved p fd bytes.length
        pure (ret, bytes.length)

/-- `LSEEK_SET`, `LSEEK_CUR` and `LSEEK_END`; any other value is refused. -/
def seekTarget (env : Env) (node : Node) (cur pos : Int) (whence : Nat) : Code (Except Int Int) :=
  match whence with
  | 0 => pure (Except.ok pos)
  | 1 => pure (Except.ok (pos + cur))
  | 2 => do
      match ← vopFstat env node with
      | Except.error ret => pure (Except.error ret)
      | Except.ok stat => pure (Except.ok (pos + stat.size))
  | _ => pure (Except.error (-eInval))

/-- `file_seek` -/
def fileSeek (env : Env) (p : Nat) (fd pos : Int) (whence : Nat) : Code Int := do
  match ← fd2file p fd with
  | none => pure (-eInval)
  | some fd => do
      fdArrayAcquire p fd
      let node ← nodeOf p fd
      let file ← getFile p fd
      match ← seekTarget env node file.pos pos whence with
      | Except.error ret => do
          fdArrayRelease p fd
          pure ret
      | Except.ok pos => do
          let ret ← vopTryseek env node pos
          let file ← getFile p fd
          (if ret = 0 then setFile p fd { file with pos := pos } else pure ())
          fdArrayRelease p fd
          pure ret

/-- `file_fstat` -/
def fileFstat (env : Env) (p : Nat) (fd : Int) : Code (Except Int Stat) := do
  match ← fd2file p fd with
  | none => pure (Except.error (-eInval))
  | some fd => do
      fdArrayAcquire p fd
      let node ← nodeOf p fd
      let stat ← vopFstat env node
      fdArrayRelease p fd
      pure stat

/-- `file_fsync` -/
def fileFsync (p : Nat) (fd : Int) : Code Int := do
  match ← fd2file p fd with
  | none => pure (-eInval)
  | some fd => do
      fdArrayAcquire p fd
      let node ← nodeOf p fd
      let ret ← vopFsync node
      fdArrayRelease p fd
      pure ret

/-- `file_getdirentry` -/
def fileGetdirentry (p : Nat) (fd offset : Int) : Code (Except Int (List UInt8)) := do
  match ← fd2file p fd with
  | none => pure (Except.error (-eInval))
  | some fd => do
      fdArrayAcquire p fd
      let node ← nodeOf p fd
      let entry ← vopGetdirentry node offset
      fdArrayRelease p fd
      pure entry

/-- `file_dup` -/
def fileDup (p : Nat) (fd1 fd2 : Int) : Code Int := do
  match ← fd2file p fd1 with
  | none => pure (-eInval)
  | some source => do
      match ← fdArrayAlloc p fd2 with
      | Except.error ret => pure ret
      | Except.ok target => do
          fdArrayDup p target source
          pure target

/-! ## System calls -/

/-- `IOBUF_SIZE` -/
def iobufSize : Nat := 4096

/-- `copy_path`: the memory is there, and the path can be read from the user. -/
def copyPath : Code Int := do
  let ok ← kmallocOk
  if ok = true then do
    let bad ← onSfs fails
    pure (if bad then -eInval else 0)
  else pure (-eNoMem)

/-- The loop of `sysfile_read`, which moves at least a byte in every round but the last. -/
def readLoop (env : Env) (p : Nat) (fd : Int) : Nat → Nat → Nat → Code Int
  | 0, _, copied => pure copied
  | rounds + 1, len, copied =>
      if len = 0 then pure copied
      else do
        let (ret, bytes) ← fileRead env p fd (min iobufSize len)
        let bad ← (if bytes ≠ [] then onSfs fails else pure false)
        let ret := if bad = true ∧ ret = 0 then -eInval else ret
        let moved := if bad = true then 0 else bytes.length
        Code.assert (moved ≤ len)
        if ret ≠ 0 ∨ bytes = [] then pure (if copied + moved ≠ 0 then ((copied + moved : Nat) : Int) else ret)
        else readLoop env p fd rounds (len - moved) (copied + moved)

/-- `sysfile_read` -/
def sysfileRead (env : Env) (p : Nat) (fd : Int) (len : Nat) : Code Int := do
  if len = 0 then pure 0
  else do
    let ok ← fileTestfd p fd true false
    if ok = false then pure (-eInval)
    else do
      let ok ← kmallocOk
      if ok = true then readLoop env p fd len len 0 else pure (-eNoMem)

/-- The loop of `sysfile_write` -/
def writeLoop (env : Env) (p : Nat) (fd : Int) : Nat → List UInt8 → Nat → Code Int
  | 0, _, copied => pure copied
  | rounds + 1, data, copied =>
      if data = [] then pure copied
      else do
        let bad ← onSfs fails
        if bad = true then pure (if copied ≠ 0 then copied else -eInval)
        else do
          let (ret, moved) ← fileWrite env p fd (data.take iobufSize)
          Code.assert (moved ≤ data.length)
          if ret ≠ 0 ∨ moved = 0 then pure (if copied + moved ≠ 0 then ((copied + moved : Nat) : Int) else ret)
          else writeLoop env p fd rounds (data.drop moved) (copied + moved)

/-- `sysfile_write` -/
def sysfileWrite (env : Env) (p : Nat) (fd : Int) (data : List UInt8) : Code Int := do
  if data = [] then pure 0
  else do
    let ok ← fileTestfd p fd false true
    if ok = false then pure (-eInval)
    else do
      let ok ← kmallocOk
      if ok = true then writeLoop env p fd data.length data 0 else pure (-eNoMem)

/-- The system calls on files. -/
inductive Call where
  | sysOpen (path : List UInt8) (flags : Nat)
  | close (fd : Int)
  | read (fd : Int) (len : Nat)
  | write (fd : Int) (data : List UInt8)
  | seek (fd pos : Int) (whence : Nat)
  | fstat (fd : Int)
  | fsync (fd : Int)
  | getdirentry (fd offset : Int)
  | dup (fd1 fd2 : Int)
  | chdir (path : List UInt8)
  | getcwd (len : Nat)
  deriving DecidableEq

/-- `sysfile_open` -/
def sysfileOpen (env : Env) (p : Nat) (path : List UInt8) (flags : Nat) : Code Int := do
  let ret ← copyPath
  if ret ≠ 0 then pure ret else fileOpen env p path flags

/-- `sysfile_fstat` -/
def sysfileFstat (env : Env) (p : Nat) (fd : Int) : Code Int := do
  match ← fileFstat env p fd with
  | Except.error ret => pure ret
  | Except.ok _ => do
      let bad ← onSfs fails
      pure (if bad then -eInval else 0)

/-- `sysfile_getdirentry` -/
def sysfileGetdirentry (p : Nat) (fd offset : Int) : Code Int := do
  let ok ← kmallocOk
  if ok = true then do
    let bad ← onSfs fails
    if bad = true then pure (-eInval)
    else do
      match ← fileGetdirentry p fd offset with
      | Except.error ret => pure ret
      | Except.ok _ => do
          let bad ← onSfs fails
          pure (if bad then -eInval else 0)
  else pure (-eNoMem)

/-- `sysfile_chdir` -/
def sysfileChdir (env : Env) (p : Nat) (path : List UInt8) : Code Int := do
  let ret ← copyPath
  if ret ≠ 0 then pure ret else vfsChdir env p path

/-- `sysfile_getcwd` -/
def sysfileGetcwd (env : Env) (p len : Nat) : Code Int := do
  if len = 0 then pure (-eInval)
  else do
    let bad ← onSfs fails
    if bad = true then pure (-eInval)
    else do
      match ← vfsGetcwd env p len with
      | Except.error ret => pure ret
      | Except.ok _ => pure 0

/-- A system call of the process with the table `p`. -/
def Call.exec (env : Env) (p : Nat) : Call → Code Int
  | sysOpen path flags => sysfileOpen env p path flags
  | close fd => fileClose p fd
  | read fd len => sysfileRead env p fd len
  | write fd data => sysfileWrite env p fd data
  | seek fd pos whence => fileSeek env p fd pos whence
  | fstat fd => sysfileFstat env p fd
  | fsync fd => fileFsync p fd
  | getdirentry fd offset => sysfileGetdirentry p fd offset
  | dup fd1 fd2 => fileDup p fd1 fd2
  | chdir path => sysfileChdir env p path
  | getcwd len => sysfileGetcwd env p len

end Vfs
end TriOS
