import TriOS.Fs.BlockMap
import TriOS.Fs.File
import TriOS.Mm.UserMem

/-!
# sysfile.c, file.c — reads and writes between a file and a buffer of the user

`sysfile_read` and `sysfile_write` move the bytes in parts of at most `IOBUF_SIZE` bytes, through a
buffer of the kernel. The inode behind the file may be of any kind: all that counts is what `vop_read`
and `vop_write` promise.
-/

namespace TriOS
namespace Transfer

open Outcome

open Vfs (Block FdStatus iobufSize filesStructNentry sfsMaxFileSize)

variable {σ ν : Type}

/-- The operations of inodes of type `ν`, in a system of states `σ`: `vop_read` from an offset with room
for a number of bytes, `vop_write` of bytes at an offset, and `vfs_close`. The first two return an error
code and say what has moved. Their laws are the ones of the interface. -/
structure InodeOps (σ ν : Type) where
  vopRead : ν → σ → Int → Nat → Int × List UInt8 × σ
  vopWrite : ν → σ → Int → List UInt8 → Int × Nat × σ
  vfsClose : ν → σ → σ
  size : ν → σ → Nat
  byte : ν → σ → Nat → UInt8
  read_ret : ∀ node fs pos len, (vopRead node fs pos len).1 ≤ 0
  write_ret : ∀ node fs pos buf, (vopWrite node fs pos buf).1 ≤ 0
  size_le : ∀ node fs, size node fs ≤ sfsMaxFileSize
  read_neg : ∀ node fs pos len, pos < 0 → (vopRead node fs pos len).2.1 = []
  read_le : ∀ node fs pos len,
    (vopRead node fs pos len).2.1.length ≤ min len (size node fs - pos.toNat)
  read_all : ∀ node fs pos len, 0 ≤ pos → (vopRead node fs pos len).1 = 0 →
    (vopRead node fs pos len).2.1.length = min len (size node fs - pos.toNat)
  read_byte : ∀ node fs pos len i, i < (vopRead node fs pos len).2.1.length →
    (vopRead node fs pos len).2.1.getD i 0 = byte node fs (pos.toNat + i)
  read_size : ∀ node fs pos len, size node (vopRead node fs pos len).2.2 = size node fs
  read_keeps : ∀ node fs pos len, byte node (vopRead node fs pos len).2.2 = byte node fs
  write_neg : ∀ node fs pos buf, pos < 0 → (vopWrite node fs pos buf).2.1 = 0
  write_le : ∀ node fs pos buf, (vopWrite node fs pos buf).2.1 ≤ buf.length
  write_end : ∀ node fs pos buf, 0 < (vopWrite node fs pos buf).2.1 →
    pos.toNat + (vopWrite node fs pos buf).2.1 ≤ size node (vopWrite node fs pos buf).2.2
  write_size : ∀ node fs pos buf, pos.toNat ≤ size node fs →
    size node (vopWrite node fs pos buf).2.2 =
      max (size node fs) (pos.toNat + (vopWrite node fs pos buf).2.1)
  write_mono : ∀ node fs pos buf, size node fs ≤ size node (vopWrite node fs pos buf).2.2
  write_byte : ∀ node fs pos buf i, i < (vopWrite node fs pos buf).2.1 →
    byte node (vopWrite node fs pos buf).2.2 (pos.toNat + i) = buf.getD i 0
  write_keeps : ∀ node fs pos buf x, x < size node fs →
    x < pos.toNat ∨ pos.toNat + (vopWrite node fs pos buf).2.1 ≤ x →
    byte node (vopWrite node fs pos buf).2.2 x = byte node fs x

/-- `struct file`; its field `fd` is the place in the table. -/
structure File (ν : Type) where
  status : FdStatus
  readable : Bool
  writable : Bool
  pos : Int
  node : ν
  openCount : Int

/-- What the calls of a process work on: the system below, its table of open files, its address space
and the memory. -/
structure Task (σ ν : Type) where
  fs : σ
  file : Nat → File ν
  mm : Option MmStruct
  mem : Nat → UInt8

/-- Store to an entry of the table. -/
def Task.setFile (t : Task σ ν) (fd : Nat) (file : File ν) : Task σ ν :=
  { t with file := Function.update t.file fd file }

/-! ## file.c -/

/-- `fd_array_free` -/
def fdArrayFree (ops : InodeOps σ ν) (t : Task σ ν) (fd : Nat) : Outcome (Task σ ν) := do
  let file := t.file fd
  Outcome.assert (file.status = FdStatus.init ∨ file.status = FdStatus.closed)
  Outcome.assert (file.openCount = 0)
  let t := if file.status = FdStatus.closed then { t with fs := ops.vfsClose file.node t.fs } else t
  pure (t.setFile fd { file with status := FdStatus.none })

/-- `fd_array_acquire` -/
def fdArrayAcquire (t : Task σ ν) (fd : Nat) : Outcome (Task σ ν) := do
  let file := t.file fd
  Outcome.assert (file.status = FdStatus.opened)
  pure (t.setFile fd { file with openCount := file.openCount + 1 })

/-- `fd_array_release` -/
def fdArrayRelease (ops : InodeOps σ ν) (t : Task σ ν) (fd : Nat) : Outcome (Task σ ν) := do
  let file := t.file fd
  Outcome.assert (file.status = FdStatus.opened ∨ file.status = FdStatus.closed)
  Outcome.assert (0 < file.openCount)
  let t := t.setFile fd { file with openCount := file.openCount - 1 }
  if file.openCount - 1 = 0 then fdArrayFree ops t fd else pure t

/-- `fd2file` -/
def fd2file (t : Task σ ν) (fd : Int) : Option Nat :=
  if 0 ≤ fd ∧ fd < filesStructNentry then
    if (t.file fd.toNat).status = FdStatus.opened then some fd.toNat else none
  else none

/-- `file_testfd` -/
def fileTestfd (t : Task σ ν) (fd : Int) (readable writable : Bool) : Bool :=
  match fd2file t fd with
  | none => false
  | some fd => !(readable && !(t.file fd).readable) && !(writable && !(t.file fd).writable)

/-- The end of `file_read` and `file_write`: the position moves on, and the file is released. -/
def fileMoved (ops : InodeOps σ ν) (t : Task σ ν) (fd copied : Nat) : Outcome (Task σ ν) :=
  let file := t.file fd
  let t := if file.status = FdStatus.opened then t.setFile fd { file with pos := file.pos + copied } else t
  fdArrayRelease ops t fd

/-- `file_read`, with the bytes that it puts into its buffer. -/
def fileRead (ops : InodeOps σ ν) (t : Task σ ν) (fd : Int) (len : Nat) :
    Outcome (Int × List UInt8 × Task σ ν) :=
  match fd2file t fd with
  | none => pure (-eInval, [], t)
  | some fd =>
      if (t.file fd).readable = false then pure (-eInval, [], t)
      else do
        let t ← fdArrayAcquire t fd
        let (ret, bytes, fs) := ops.vopRead (t.file fd).node t.fs (t.file fd).pos len
        let t ← fileMoved ops { t with fs := fs } fd bytes.length
        pure (ret, bytes, t)

/-- `file_write`, with the number of bytes that it has written. -/
def fileWrite (ops : InodeOps σ ν) (t : Task σ ν) (fd : Int) (buf : List UInt8) :
    Outcome (Int × Nat × Task σ ν) :=
  match fd2file t fd with
  | none => pure (-eInval, 0, t)
  | some fd =>
      if (t.file fd).writable = false then pure (-eInval, 0, t)
      else do
        let t ← fdArrayAcquire t fd
        let (ret, copied, fs) := ops.vopWrite (t.file fd).node t.fs (t.file fd).pos buf
        let t ← fileMoved ops { t with fs := fs } fd copied
        pure (ret, copied, t)

/-! ## sysfile.c -/

/-- `copy_to_user` of the bytes in the buffer. -/
def copyToUser (bound : Nat) (t : Task σ ν) (base : Nat) (bytes : List UInt8) :
    Outcome (Bool × Task σ ν) := do
  let (ok, mm) ← userMemCheck bound t.mm base bytes.length true
  if ok = false then pure (false, { t with mm := mm })
  else pure (true, { t with mm := mm, mem := Block.put t.mem base bytes })

/-- `copy_from_user`, with the bytes that come into the buffer. -/
def copyFromUser (bound : Nat) (t : Task σ ν) (base len : Nat) (writable : Bool) :
    Outcome (Bool × List UInt8 × Task σ ν) := do
  let (ok, mm) ← userMemCheck bound t.mm base len writable
  if ok = false then pure (false, [], { t with mm := mm })
  else pure (true, Block.bytes t.mem base len, { t with mm := mm })

/-- The user's side of a round of `sysfile_read`: `ret`, and how far `base` moves. -/
def deliver (bound : Nat) (t : Task σ ν) (base len : Nat) (ret : Int) (bytes : List UInt8) :
    Outcome (Int × Nat × Task σ ν) :=
  if bytes.length ≠ 0 then do
    let (ok, t) ← copyToUser bound t base bytes
    if ok = true then do
      Outcome.assert (bytes.length ≤ len)
      pure (ret, bytes.length, t)
    else pure (if ret = 0 then -eInval else ret, 0, t)
  else pure (ret, 0, t)

/-- `alen`, the bytes that a round asks for. -/
def alenOf (len : Nat) : Nat := if iobufSize > len then len else iobufSize

/-- The loop of `sysfile_read`, which ends with `ret` and `copied`. -/
def readLoop (ops : InodeOps σ ν) (bound : Nat) (fd : Int) :
    Nat → Task σ ν → Nat → Nat → Nat → Outcome (Int × Nat × Task σ ν)
  | 0, _, _, _, _ => fuel
  | rounds + 1, t, base, len, copied =>
      if len = 0 then pure (0, copied, t)
      else do
        let alen := alenOf len
        let (ret, bytes, t) ← fileRead ops t fd alen
        let (ret, moved, t) ← deliver bound t base len ret bytes
        if ret ≠ 0 ∨ bytes.length = 0 then pure (ret, copied + moved, t)
        else readLoop ops bound fd rounds t ((base + moved) % 2 ^ 64) (len - moved) (copied + moved)

/-- A `size_t` that is returned as an `int`. -/
def toInt (n : Nat) : Int :=
  if n % 2 ^ 32 < 2 ^ 31 then (n % 2 ^ 32 : Nat) else (n % 2 ^ 32 : Nat) - 2 ^ 32

/-- `sysfile_read`; `memory` says whether `kmalloc` has the buffer. -/
def sysfileRead (ops : InodeOps σ ν) (bound : Nat) (t : Task σ ν) (memory : Bool) (fd : Int)
    (base len : Nat) : Outcome (Int × Task σ ν) :=
  if len = 0 then pure (0, t)
  else if fileTestfd t fd true false = false then pure (-eInval, t)
  else if memory = false then pure (-eNoMem, t)
  else do
    let (ret, copied, t) ← readLoop ops bound fd bound t base len 0
    pure (if copied ≠ 0 then toInt copied else ret, t)

/-- The loop of `sysfile_write` -/
def writeLoop (ops : InodeOps σ ν) (bound : Nat) (fd : Int) :
    Nat → Task σ ν → Nat → Nat → Nat → Outcome (Int × Nat × Task σ ν)
  | 0, _, _, _, _ => fuel
  | rounds + 1, t, base, len, copied =>
      if len = 0 then pure (0, copied, t)
      else do
        let alen := alenOf len
        let (ok, buffer, t) ← copyFromUser bound t base alen false
        if ok = false then pure (-eInval, copied, t)
        else do
          let (ret, alen, t) ← fileWrite ops t fd buffer
          Outcome.assert (alen ≤ len)
          if ret ≠ 0 ∨ alen = 0 then pure (ret, copied + alen, t)
          else writeLoop ops bound fd rounds t ((base + alen) % 2 ^ 64) (len - alen) (copied + alen)

/-- `sysfile_write` -/
def sysfileWrite (ops : InodeOps σ ν) (bound : Nat) (t : Task σ ν) (memory : Bool) (fd : Int)
    (base len : Nat) : Outcome (Int × Task σ ν) :=
  if len = 0 then pure (0, t)
  else if fileTestfd t fd false true = false then pure (-eInval, t)
  else if memory = false then pure (-eNoMem, t)
  else do
    let (ret, copied, t) ← writeLoop ops bound fd bound t base len 0
    pure (if copied ≠ 0 then toInt copied else ret, t)

/-! ## Files -/

variable {ops : InodeOps σ ν} {t t' : Task σ ν} {fd : Int} {d base len copied n k : Nat} {ret : Int}
  {bytes : List UInt8} {addr : Nat} {write : Bool} {vmas : Option (List Vma)}

/-- The bytes that a transfer from `pos` can read. -/
def InodeOps.avail (ops : InodeOps σ ν) (node : ν) (fs : σ) (pos : Int) (len : Nat) : Nat :=
  if pos < 0 then 0 else min len (ops.size node fs - pos.toNat)

theorem InodeOps.read_avail (ops : InodeOps σ ν) (node : ν) (fs : σ) (pos : Int) (len : Nat) :
    (ops.vopRead node fs pos len).2.1.length ≤ ops.avail node fs pos len := by
  unfold avail
  split
  next hneg => rw [ops.read_neg node fs pos len hneg, List.length_nil]
  next => exact ops.read_le node fs pos len

theorem InodeOps.read_eq_avail (ops : InodeOps σ ν) (node : ν) (fs : σ) (pos : Int) (len : Nat)
    (hret : (ops.vopRead node fs pos len).1 = 0) :
    (ops.vopRead node fs pos len).2.1.length = ops.avail node fs pos len := by
  unfold avail
  split
  next hneg => rw [ops.read_neg node fs pos len hneg, List.length_nil]
  next hpos => exact ops.read_all node fs pos len (Int.not_lt.1 hpos) hret

/-- The address space is well formed, and a file that is open is held. -/
structure Task.Ok (t : Task σ ν) : Prop where
  mm : ∀ mm, t.mm = some mm → mm.Ok
  held : ∀ d, (t.file d).status = FdStatus.opened → 0 < (t.file d).openCount

/-- The areas of the address space; a thread of the kernel has none. -/
def Task.areas (t : Task σ ν) : Option (List Vma) :=
  t.mm.map MmStruct.mmapList

/-- The inode of an open file. -/
def Task.node (t : Task σ ν) (d : Nat) : ν := (t.file d).node

/-- The position of an open file. -/
def Task.pos (t : Task σ ν) (d : Nat) : Int := (t.file d).pos

/-- What a transfer changes: the system below, and the position of the file. -/
def Task.moved (t : Task σ ν) (d : Nat) (fs : σ) (n : Nat) : Task σ ν :=
  { t with
    fs := fs
    file := Function.update t.file d { t.file d with pos := (t.file d).pos + n } }

theorem Task.Ok.moved (h : t.Ok) (d : Nat) (fs : σ) (n : Nat) : (t.moved d fs n).Ok := by
  refine ⟨h.mm, fun e he => ?_⟩
  by_cases hed : e = d
  · subst hed
    simp only [Task.moved, Function.update_self] at he ⊢
    exact h.held e he
  · simp only [Task.moved, Function.update_of_ne hed] at he ⊢
    exact h.held e he

@[simp] theorem Task.moved_pos (t : Task σ ν) (d : Nat) (fs : σ) (n : Nat) :
    (t.moved d fs n).pos d = t.pos d + n := by
  simp [Task.moved, Task.pos]

@[simp] theorem Task.moved_node (t : Task σ ν) (d : Nat) (fs : σ) (n : Nat) :
    (t.moved d fs n).node d = t.node d := by
  simp [Task.moved, Task.node]

@[simp] theorem Task.moved_areas (t : Task σ ν) (d : Nat) (fs : σ) (n : Nat) :
    (t.moved d fs n).areas = t.areas := rfl

/-- `fd` is a descriptor of the open file `d`. -/
structure Opened (t : Task σ ν) (fd : Int) (d : Nat) : Prop where
  fd2file : fd2file t fd = some d
  status : (t.file d).status = FdStatus.opened

theorem opened_iff : fd2file t fd = some d ↔ Opened t fd d := by
  refine ⟨fun h => ⟨h, ?_⟩, Opened.fd2file⟩
  unfold fd2file at h
  split at h
  · split at h
    next hst =>
      cases h
      exact hst
    · cases h
  · cases h

theorem Opened.eq_toNat (h : Opened t fd d) : d = fd.toNat := by
  have hfd := h.fd2file
  unfold Transfer.fd2file at hfd
  split at hfd
  · split at hfd
    · cases hfd
      rfl
    · cases hfd
  · cases hfd

/-- A table that differs only in positions has the same descriptors. -/
theorem Opened.congr (h : Opened t fd d) (hst : ∀ e, (t'.file e).status = (t.file e).status) :
    Opened t' fd d := by
  refine opened_iff.1 ?_
  rw [← h.fd2file]
  unfold Transfer.fd2file
  simp only [hst]

theorem Task.moved_status (t : Task σ ν) (d : Nat) (fs : σ) (n e : Nat) :
    ((t.moved d fs n).file e).status = (t.file e).status := by
  by_cases hed : e = d
  · subst hed
    simp [Task.moved]
  · simp [Task.moved, Function.update_of_ne hed]

theorem Opened.moved (h : Opened t fd d) (fs : σ) (n : Nat) : Opened (t.moved d fs n) fd d :=
  h.congr (t.moved_status d fs n)

/-- Between `fd_array_acquire` and `fd_array_release` only the position has moved. -/
theorem fileMoved_acquired (h : Opened t fd d) (hok : t.Ok) (fs : σ) (n : Nat) :
    ∃ t₁, fdArrayAcquire t d = done t₁ ∧ (t₁.file d).node = t.node d ∧ (t₁.file d).pos = t.pos d ∧
      t₁.fs = t.fs ∧ fileMoved ops { t₁ with fs := fs } d n = done (t.moved d fs n) := by
  have hheld := hok.held d h.status
  refine ⟨t.setFile d { t.file d with openCount := (t.file d).openCount + 1 }, ?_, ?_, ?_, rfl, ?_⟩
  · simp only [fdArrayAcquire, Outcome.assert, if_pos h.status, bind_done, pure_eq_done]
  · simp [Task.setFile, Task.node]
  · simp [Task.setFile, Task.pos]
  · have hpos : 0 < (t.file d).openCount + 1 := by omega
    have hne : (t.file d).openCount ≠ 0 := by omega
    simp only [fileMoved, fdArrayRelease, Task.setFile, Function.update_self, if_pos h.status,
      Outcome.assert, if_pos (Or.inl h.status), if_pos hpos, bind_done, pure_eq_done,
      Task.moved, Function.update_idem,
      add_sub_cancel_right, if_neg hne]

theorem fileRead_eq (h : Opened t fd d) (hok : t.Ok) (hread : (t.file d).readable = true) (len : Nat) :
    fileRead ops t fd len =
      done ((ops.vopRead (t.node d) t.fs (t.pos d) len).1,
        (ops.vopRead (t.node d) t.fs (t.pos d) len).2.1,
        t.moved d (ops.vopRead (t.node d) t.fs (t.pos d) len).2.2
          (ops.vopRead (t.node d) t.fs (t.pos d) len).2.1.length) := by
  obtain ⟨t₁, hacq, hnode, hpos, hfs, hmoved⟩ := @fileMoved_acquired _ _ ops _ _ _ h hok
    (ops.vopRead (t.node d) t.fs (t.pos d) len).2.2
    (ops.vopRead (t.node d) t.fs (t.pos d) len).2.1.length
  have hread' : ¬ (t.file d).readable = false := by
    rw [hread]
    exact Bool.noConfusion
  simp only [fileRead, h.fd2file, if_neg hread', hacq, bind_done, hnode, hpos, hfs, hmoved,
    pure_eq_done]

theorem fileWrite_eq (h : Opened t fd d) (hok : t.Ok) (hwrite : (t.file d).writable = true)
    (buf : List UInt8) :
    fileWrite ops t fd buf =
      done ((ops.vopWrite (t.node d) t.fs (t.pos d) buf).1,
        (ops.vopWrite (t.node d) t.fs (t.pos d) buf).2.1,
        t.moved d (ops.vopWrite (t.node d) t.fs (t.pos d) buf).2.2
          (ops.vopWrite (t.node d) t.fs (t.pos d) buf).2.1) := by
  obtain ⟨t₁, hacq, hnode, hpos, hfs, hmoved⟩ := @fileMoved_acquired _ _ ops _ _ _ h hok
    (ops.vopWrite (t.node d) t.fs (t.pos d) buf).2.2
    (ops.vopWrite (t.node d) t.fs (t.pos d) buf).2.1
  have hwrite' : ¬ (t.file d).writable = false := by
    rw [hwrite]
    exact Bool.noConfusion
  simp only [fileWrite, h.fd2file, if_neg hwrite', hacq, bind_done, hnode, hpos, hfs, hmoved,
    pure_eq_done]

/-! ## The buffer of the user -/

/-- `user_mem_check` accepts the range. -/
def UserRange (vmas : Option (List Vma)) (write : Bool) (addr len : Nat) : Prop :=
  match vmas with
  | none => KernAccess addr ((addr + len) % 2 ^ 64)
  | some vmas => Accessible vmas write addr len

theorem UserRange.no_wrap (h : UserRange vmas write addr len) (haddr : addr < 2 ^ 64)
    (hlen : len < 2 ^ 64) : 0 < len ∧ addr + len < 2 ^ 64 := by
  cases vmas with
  | none =>
      obtain ⟨hbase, hlt, htop⟩ := h
      omega
  | some vmas => exact ⟨h.nonempty, h.overflow⟩

/-- A range is accepted exactly if its two parts are. -/
theorem userRange_split (haddr : addr < 2 ^ 64) (hlen : k + n < 2 ^ 64) (hk : 0 < k) (hn : 0 < n) :
    UserRange vmas write addr (k + n) ↔ UserRange vmas write addr k ∧ UserRange vmas write (addr + k) n := by
  cases vmas with
  | none =>
      constructor
      · rintro ⟨hbase, hlt, htop⟩
        unfold kernTop at htop
        exact ⟨⟨hbase, by omega, by unfold kernTop; omega⟩, by omega, by omega, by unfold kernTop; omega⟩
      · rintro ⟨⟨hbase, hlt, htop⟩, ⟨hbase', hlt', htop'⟩⟩
        unfold kernTop at htop htop'
        exact ⟨hbase, by omega, by unfold kernTop; omega⟩
  | some vmas =>
      constructor
      · intro h
        have hover := h.overflow
        have htop := h.range
        refine ⟨h.front hk (by omega), ⟨hn, by omega, ⟨by omega, by omega⟩, fun x hlow hlt => ?_⟩⟩
        exact h.bytes x (by omega) (by omega)
      · rintro ⟨h, h'⟩
        have hover := h'.overflow
        have htop := h'.range
        refine ⟨by omega, by omega, ⟨h.range.1, by omega⟩, fun x hlow hlt => ?_⟩
        by_cases hx : x < addr + k
        · exact h.bytes x hlow hx
        · exact h'.bytes x (by omega) (by omega)

/-- `user_mem_check` of a thread of the kernel or of a process. -/
theorem userMemCheck_mm (h : t.Ok) (write : Bool) (haddr : addr < 2 ^ 64) (hlen : len < 2 ^ 64) :
    ∃ ok mm, (∀ bound, userTop ≤ bound → userMemCheck bound t.mm addr len write = done (ok, mm)) ∧
      (ok = true ↔ UserRange t.areas write addr len) ∧ mm.map MmStruct.mmapList = t.areas ∧
      ∀ m, mm = some m → m.Ok := by
  cases hmm : t.mm with
  | none =>
      refine ⟨decide (KernAccess addr ((addr + len) % 2 ^ 64)), none, fun _ _ => rfl, ?_, ?_, ?_⟩
      · rw [decide_eq_true_iff, Task.areas, hmm]
        rfl
      · rw [Task.areas, hmm]
      · intro m hm
        cases hm
  | some mm =>
      obtain ⟨ok, mm', hrun, hsame, hok⟩ := userMemCheck_spec write (h.mm mm hmm) haddr hlen
      refine ⟨ok, some mm', hrun, ?_, ?_, ?_⟩
      · rw [hok, Task.areas, hmm]
        rfl
      · rw [Task.areas, hmm, Option.map_some, Option.map_some, hsame.1]
      · intro m hm
        cases hm
        exact hsame.2.2

/-- The memory and the last answer of `find_vma` have changed at most. -/
structure Task.SameFiles (t t' : Task σ ν) : Prop where
  fs : t'.fs = t.fs
  file : t'.file = t.file
  areas : t'.areas = t.areas
  ok : t'.Ok

theorem copyToUser_spec (h : t.Ok) (haddr : addr < 2 ^ 64) (hlen : bytes.length < 2 ^ 64) :
    ∃ ok t', (∀ bound, userTop ≤ bound → copyToUser bound t addr bytes = done (ok, t')) ∧
      (ok = true ↔ UserRange t.areas true addr bytes.length) ∧ t.SameFiles t' ∧
      t'.mem = if ok = true then Block.put t.mem addr bytes else t.mem := by
  obtain ⟨ok, mm, hrun, hok, hareas, hmm⟩ := userMemCheck_mm h true haddr hlen
  cases ok with
  | false =>
      refine ⟨false, { t with mm := mm }, fun bound hbound => ?_, hok, ⟨rfl, rfl, hareas, hmm, h.held⟩, ?_⟩
      · simp only [copyToUser, hrun bound hbound, bind_done, if_true, pure_eq_done]
      · exact (if_neg Bool.noConfusion).symm
  | true =>
      refine ⟨true, { t with mm := mm, mem := Block.put t.mem addr bytes }, fun bound hbound => ?_, hok,
        ⟨rfl, rfl, hareas, hmm, h.held⟩, (if_pos rfl).symm⟩
      simp only [copyToUser, hrun bound hbound, bind_done, Bool.true_eq_false, if_false, pure_eq_done]

theorem copyFromUser_spec (h : t.Ok) (haddr : addr < 2 ^ 64) (hlen : len < 2 ^ 64) :
    ∃ ok t', (∀ bound, userTop ≤ bound → copyFromUser bound t addr len write =
        done (ok, if ok = true then Block.bytes t.mem addr len else [], t')) ∧
      (ok = true ↔ UserRange t.areas write addr len) ∧ t.SameFiles t' ∧ t'.mem = t.mem := by
  obtain ⟨ok, mm, hrun, hok, hareas, hmm⟩ := userMemCheck_mm h write haddr hlen
  refine ⟨ok, { t with mm := mm }, fun bound hbound => ?_, hok, ⟨rfl, rfl, hareas, hmm, h.held⟩, rfl⟩
  cases ok with
  | false => simp only [copyFromUser, hrun bound hbound, bind_done, if_true, Bool.false_eq_true, if_false,
      pure_eq_done]
  | true => simp only [copyFromUser, hrun bound hbound, bind_done, Bool.true_eq_false, if_false, if_true,
      pure_eq_done]

/-! ## sysfile_read -/

/-- How many bytes the file gives to a series of transfers of at most `IOBUF_SIZE` bytes each, `len`
together: up to the first that fails or finds nothing. -/
def InodeOps.gives (ops : InodeOps σ ν) (node : ν) : Nat → σ → Int → Nat → Nat
  | 0, _, _, _ => 0
  | rounds + 1, fs, pos, len =>
      if len = 0 then 0
      else
        let (ret, bytes, fs) := ops.vopRead node fs pos (alenOf len)
        if ret ≠ 0 ∨ bytes.length = 0 then bytes.length
        else bytes.length + ops.gives node rounds fs (pos + bytes.length) (len - bytes.length)

theorem alenOf_le (len : Nat) : alenOf len ≤ len := by
  unfold alenOf
  split
  · exact le_rfl
  next h => exact Nat.not_lt.1 h

theorem InodeOps.read_le_len (ops : InodeOps σ ν) (node : ν) (fs : σ) (pos : Int) (len : Nat) :
    (ops.vopRead node fs pos (alenOf len)).2.1.length ≤ len :=
  calc (ops.vopRead node fs pos (alenOf len)).2.1.length
      ≤ min (alenOf len) (ops.size node fs - pos.toNat) :=
        ops.read_le node fs pos _
    _ ≤ alenOf len := Nat.min_le_left _ _
    _ ≤ len := alenOf_le len

theorem InodeOps.gives_succ (ops : InodeOps σ ν) (node : ν) (rounds : Nat) (fs : σ) (pos : Int)
    (hlen : len ≠ 0) : ops.gives node (rounds + 1) fs pos len =
      if (ops.vopRead node fs pos (alenOf len)).1 ≠ 0 ∨
          (ops.vopRead node fs pos (alenOf len)).2.1.length = 0 then
        (ops.vopRead node fs pos (alenOf len)).2.1.length
      else
        (ops.vopRead node fs pos (alenOf len)).2.1.length +
          ops.gives node rounds (ops.vopRead node fs pos (alenOf len)).2.2
            (pos + (ops.vopRead node fs pos (alenOf len)).2.1.length)
            (len - (ops.vopRead node fs pos (alenOf len)).2.1.length) :=
  if_neg hlen

theorem InodeOps.gives_le (ops : InodeOps σ ν) (node : ν) (rounds : Nat) (fs : σ) (pos : Int) (len : Nat) :
    ops.gives node rounds fs pos len ≤ len := by
  induction rounds generalizing fs pos len with
  | zero => exact Nat.zero_le _
  | succ rounds ih =>
      have hle := ops.read_le_len node fs pos len
      by_cases hlen : len = 0
      · rw [gives, if_pos hlen]
        exact Nat.zero_le _
      rw [ops.gives_succ node rounds fs pos hlen]
      split
      · exact hle
      · calc (ops.vopRead node fs pos (alenOf len)).2.1.length + _
            ≤ (ops.vopRead node fs pos (alenOf len)).2.1.length +
                (len - (ops.vopRead node fs pos (alenOf len)).2.1.length) :=
              Nat.add_le_add_left (ih _ _ _) _
          _ = len := Nat.add_sub_cancel' hle

theorem deliver_spec (h : t.Ok) (haddr : base < 2 ^ 64) (hle : bytes.length ≤ len) (hlen : len < 2 ^ 64) :
    ∃ ret' m t', (∀ bound, userTop ≤ bound → deliver bound t base len ret bytes = done (ret', m, t')) ∧
      t.SameFiles t' ∧ (∀ i, i < m → t'.mem (base + i) = bytes.getD i 0) ∧
      (∀ x, x < base ∨ base + m ≤ x → t'.mem x = t.mem x) ∧
      (m = bytes.length ∧ ret' = ret ∧ (bytes.length = 0 ∨ UserRange t.areas true base bytes.length) ∨
        m = 0 ∧ ret' ≠ 0 ∧ bytes.length ≠ 0 ∧ ¬ UserRange t.areas true base bytes.length) ∧
      (ret ≤ 0 → ret' ≤ 0) := by
  by_cases hempty : bytes.length = 0
  · refine ⟨ret, 0, t, fun bound _ => ?_, ⟨rfl, rfl, rfl, h⟩, fun i hi => absurd hi (Nat.not_lt_zero i),
      fun _ _ => rfl, Or.inl ⟨hempty.symm, rfl, Or.inl hempty⟩, id⟩
    simp only [deliver, hempty, ne_eq, not_true_eq_false, if_false, pure_eq_done]
  · obtain ⟨ok, t', hrun, hok, hsame, hmem⟩ := copyToUser_spec h haddr (hle.trans_lt hlen)
    cases ok with
    | true =>
        refine ⟨ret, bytes.length, t', fun bound hbound => ?_, hsame, fun i hi => ?_, fun x hx => ?_,
          Or.inl ⟨rfl, rfl, Or.inr (hok.1 rfl)⟩, id⟩
        · simp only [deliver, ne_eq, hempty, not_false_eq_true, if_true, hrun bound hbound, bind_done,
            Outcome.assert, if_pos hle, pure_eq_done]
        · rw [hmem, if_pos rfl, Block.put, if_pos ⟨Nat.le_add_right _ _, by omega⟩, Nat.add_sub_cancel_left]
        · rw [hmem, if_pos rfl, Block.put, if_neg (by omega)]
    | false =>
        have hno : ¬ UserRange t.areas true base bytes.length := fun hr => Bool.noConfusion (hok.2 hr)
        refine ⟨if ret = 0 then -eInval else ret, 0, t', fun bound hbound => ?_, hsame,
          fun i hi => absurd hi (Nat.not_lt_zero i), fun x _ => ?_, Or.inr ⟨rfl, ?_, hempty, hno⟩,
          fun hneg => ?_⟩
        · simp only [deliver, ne_eq, hempty, not_false_eq_true, if_true, hrun bound hbound, bind_done,
            Bool.false_eq_true, if_false, pure_eq_done]
        · rw [hmem, if_neg Bool.noConfusion]
        · split
          · decide
          next hret => exact hret
        · split
          · decide
          · exact hneg

/-- A run of the loop of `sysfile_read` that has brought `k` bytes to the user, while the position has
moved by `adv`. -/
structure ReadRun (ops : InodeOps σ ν) (t : Task σ ν) (d base len : Nat) (ret : Int) (k adv : Nat)
    (t' : Task σ ν) : Prop where
  neg : ret ≤ 0
  pos : t'.pos d = t.pos d + adv
  le : k ≤ adv
  avail : adv ≤ ops.avail (t.node d) t.fs (t.pos d) len
  exact : ∀ rounds, len ≤ rounds → (k = adv ↔
    ops.gives (t.node d) rounds t.fs (t.pos d) len = 0 ∨
      UserRange t.areas true base (ops.gives (t.node d) rounds t.fs (t.pos d) len))
  noError : ret = 0 → k = ops.avail (t.node d) t.fs (t.pos d) len
  byte : ∀ i, i < k → t'.mem (base + i) = ops.byte (t.node d) t.fs ((t.pos d).toNat + i)
  outside : ∀ x, x < base ∨ base + k ≤ x → t'.mem x = t.mem x

/-- What is left of a file behind the bytes of a round. -/
theorem InodeOps.avail_next (ops : InodeOps σ ν) (node : ν) (fs fs' : σ) (pos : Int) (len : Nat)
    (hsize : ops.size node fs' = ops.size node fs) (hn : n ≤ ops.avail node fs pos len) :
    0 < n → 0 ≤ pos ∧
      ops.avail node fs pos len = n + ops.avail node fs' (pos + n) (len - n) := by
  intro hpos
  unfold avail at hn ⊢
  split at hn
  · omega
  next hneg =>
    rw [if_neg hneg, if_neg (by omega), hsize]
    omega

theorem UserRange.front (h : UserRange vmas write addr (k + n)) (haddr : addr < 2 ^ 64)
    (hlen : k + n < 2 ^ 64) (hk : 0 < k) : UserRange vmas write addr k := by
  rcases Nat.eq_zero_or_pos n with rfl | hn
  · exact h
  · exact ((userRange_split haddr hlen hk hn).1 h).1

theorem InodeOps.avail_mono (ops : InodeOps σ ν) (node : ν) (fs : σ) (pos : Int) (h : k ≤ n) :
    ops.avail node fs pos k ≤ ops.avail node fs pos n := by
  unfold avail
  split
  · exact le_rfl
  · exact min_le_min_right _ h

theorem alenOf_pos (h : len ≠ 0) : 0 < alenOf len := by
  unfold alenOf
  split
  · exact Nat.pos_of_ne_zero h
  · decide

/-- A transfer that finds nothing, without an error, is at the end of the file. -/
theorem InodeOps.avail_eq_zero (ops : InodeOps σ ν) (node : ν) (fs : σ) (pos : Int) (hlen : len ≠ 0)
    (h : ops.avail node fs pos (alenOf len) = 0) : ops.avail node fs pos len = 0 := by
  have hpos := alenOf_pos hlen
  unfold avail at h ⊢
  split
  · rfl
  next hneg =>
    rw [if_neg hneg] at h
    omega

theorem readLoop_spec (h : Opened t fd d) (hok : t.Ok) (hread : (t.file d).readable = true)
    (hbase : base < 2 ^ 64) (hlen : len < 2 ^ 64) : ∃ ret k adv t',
      (∀ bound, userTop ≤ bound → ∀ rounds, len < rounds → ∀ copied,
        readLoop ops bound fd rounds t base len copied = done (ret, copied + k, t')) ∧
      ReadRun ops t d base len ret k adv t' := by
  induction len using Nat.strong_induction_on generalizing t base with
  | _ len ih =>
    by_cases hzero : len = 0
    · subst hzero
      have havail : ops.avail (t.node d) t.fs (t.pos d) 0 = 0 := by
        unfold InodeOps.avail
        split
        · rfl
        · exact Nat.zero_min _
      refine ⟨0, 0, 0, t, fun bound _ rounds hrounds copied => ?_, le_rfl, (add_zero _).symm, le_rfl, Nat.zero_le _,
        fun rounds _ => iff_of_true rfl (Or.inl ?_), fun _ => havail.symm,
        fun i hi => absurd hi (Nat.not_lt_zero i), fun _ _ => rfl⟩
      · obtain ⟨rounds, rfl⟩ := Nat.exists_eq_add_of_lt hrounds
        rw [readLoop, if_pos rfl]
        rfl
      · exact Nat.le_zero.1 (ops.gives_le _ _ _ _ _)
    -- One transfer of the file, and the copy of its bytes to the user.
    have hfile := @fileRead_eq _ _ ops _ _ _ h hok hread (alenOf len)
    have hle := ops.read_le_len (t.node d) t.fs (t.pos d) len
    have havail := (ops.read_avail (t.node d) t.fs (t.pos d) (alenOf len)).trans
      (ops.avail_mono (t.node d) t.fs (t.pos d) (alenOf_le len))
    have hall := ops.read_eq_avail (t.node d) t.fs (t.pos d) (alenOf len)
    have hbyte := ops.read_byte (t.node d) t.fs (t.pos d) (alenOf len)
    have hsize := ops.read_size (t.node d) t.fs (t.pos d) (alenOf len)
    have hkeeps := ops.read_keeps (t.node d) t.fs (t.pos d) (alenOf len)
    have hneg := ops.read_ret (t.node d) t.fs (t.pos d) (alenOf len)
    have hgives := fun rounds => ops.gives_succ (t.node d) rounds t.fs (t.pos d) hzero
    generalize ops.vopRead (t.node d) t.fs (t.pos d) (alenOf len) = read at *
    obtain ⟨rret, bytes, rfs⟩ := read
    dsimp only at *
    obtain ⟨ret, m, t₁, hdel, hsame, hcopied, hold, hcase, hneg'⟩ :=
      @deliver_spec _ _ (t.moved d rfs bytes.length) base len rret bytes (hok.moved _ _ _) hbase hle hlen
    have hstep : ∀ bound, userTop ≤ bound → ∀ rounds copied,
        readLoop ops bound fd (rounds + 1) t base len copied =
          if ret ≠ 0 ∨ bytes.length = 0 then done (ret, copied + m, t₁)
          else readLoop ops bound fd rounds t₁ ((base + m) % 2 ^ 64) (len - m) (copied + m) := by
      intro bound hbound rounds copied
      simp only [readLoop, if_neg hzero, hfile, bind_done, hdel bound hbound, pure_eq_done]
    have hpos₁ : t₁.pos d = t.pos d + bytes.length := by
      rw [Task.pos, hsame.file]
      exact t.moved_pos d rfs bytes.length
    have hmem : ∀ i, i < m → m = bytes.length →
        t₁.mem (base + i) = ops.byte (t.node d) t.fs ((t.pos d).toNat + i) := by
      intro i hi hm
      rw [hcopied i hi]
      exact hbyte i (hm ▸ hi)
    rcases hcase with ⟨hm, hret, hrange⟩ | ⟨hm, hret, hne, hrange⟩
    · subst hm hret
      by_cases hlast : ret ≠ 0 ∨ bytes.length = 0
      · -- The last round.
        refine ⟨ret, bytes.length, bytes.length, t₁, fun bound hbound rounds hrounds copied => ?_, hneg, hpos₁,
          le_rfl, havail, fun rounds hrounds => ?_, fun hret => ?_, fun i hi => hmem i hi rfl, hold⟩
        · obtain ⟨rounds, rfl⟩ := Nat.exists_eq_add_of_lt hrounds
          rw [hstep bound hbound, if_pos hlast]
        · obtain ⟨rounds, rfl⟩ := Nat.exists_eq_succ_of_ne_zero (by omega : rounds ≠ 0)
          rw [Nat.succ_eq_add_one, hgives, if_pos hlast]
          exact iff_of_true rfl hrange
        · have hnone : bytes.length = 0 := hlast.resolve_left fun hne => hne hret
          rw [hnone]
          exact (ops.avail_eq_zero _ _ _ hzero ((hall hret).symm.trans hnone)).symm
      · have hmore : bytes.length ≠ 0 := fun h0 => hlast (Or.inr h0)
        have hret : ret = 0 := not_not.1 fun h0 => hlast (Or.inl h0)
        have hrange := hrange.resolve_left hmore
        obtain ⟨hposn, hwrap⟩ := hrange.no_wrap hbase (by omega)
        have hnode₁ : t₁.node d = t.node d := by
          rw [Task.node, hsame.file]
          exact t.moved_node d rfs bytes.length
        have hfs₁ : t₁.fs = rfs := hsame.fs
        have hareas₁ : t₁.areas = t.areas := hsame.areas
        have hread₁ : (t₁.file d).readable = true := by
          rw [hsame.file]
          simpa [Task.moved] using hread
        have hopen₁ : Opened t₁ fd d := by
          refine (h.moved rfs bytes.length).congr fun e => ?_
          rw [hsame.file]
        obtain ⟨ret', k, adv, t', hrun, hrest⟩ := ih (len - bytes.length) (by omega) hopen₁ hsame.ok hread₁
          hwrap (by omega)
        obtain ⟨hnonneg, hnext⟩ := ops.avail_next (t.node d) t.fs rfs (t.pos d) len hsize havail hposn
        have hpos' := hrest.pos
        have havail' := hrest.avail
        have hnoError := hrest.noError
        have hexact := hrest.exact
        have hbytes := hrest.byte
        have hcount := hrest.le
        rw [hnode₁, hfs₁, hpos₁] at havail' hnoError hexact hbytes
        rw [hareas₁] at hexact
        refine ⟨ret', bytes.length + k, bytes.length + adv, t', fun bound hbound rounds hrounds copied => ?_,
          hrest.neg, ?_, by omega, by omega, fun rounds hrounds => ?_, fun hret' => ?_, fun i hi => ?_, fun x hx => ?_⟩
        · obtain ⟨rounds, rfl⟩ := Nat.exists_eq_succ_of_ne_zero (by omega : rounds ≠ 0)
          rw [Nat.succ_eq_add_one, hstep bound hbound, if_neg hlast, Nat.mod_eq_of_lt hwrap,
            hrun bound hbound rounds (by omega), Nat.add_assoc]
        · rw [hpos', hpos₁, Nat.cast_add, add_assoc]
        · obtain ⟨rounds, rfl⟩ := Nat.exists_eq_succ_of_ne_zero (by omega : rounds ≠ 0)
          have hexact := hexact rounds (by omega)
          have hlimit := ops.gives_le (t.node d) rounds rfs (t.pos d + bytes.length) (len - bytes.length)
          rw [Nat.succ_eq_add_one, hgives, if_neg hlast]
          generalize ops.gives (t.node d) rounds rfs (t.pos d + bytes.length) (len - bytes.length) = g at *
          rcases Nat.eq_zero_or_pos g with rfl | hg
          · rw [Nat.add_zero]
            refine iff_of_true ?_ (Or.inr hrange)
            rw [hexact.2 (Or.inl rfl)]
          · calc bytes.length + k = bytes.length + adv ↔ k = adv := Nat.add_left_cancel_iff
              _ ↔ UserRange t.areas true (base + bytes.length) g :=
                  hexact.trans (or_iff_right (Nat.ne_of_gt hg))
              _ ↔ UserRange t.areas true base (bytes.length + g) := by
                  rw [userRange_split hbase (by omega) hposn hg]
                  exact (and_iff_right hrange).symm
              _ ↔ _ := (or_iff_right (by omega)).symm
        · rw [hnoError hret', hnext]
        · by_cases hin : i < bytes.length
          · rw [hrest.outside _ (Or.inl (by omega))]
            exact hmem i hin rfl
          · have hi' := hbytes (i - bytes.length) (by omega)
            rw [hkeeps] at hi'
            have haddr : base + bytes.length + (i - bytes.length) = base + i := by omega
            have hoff : (t.pos d + bytes.length).toNat + (i - bytes.length) = (t.pos d).toNat + i := by omega
            rwa [haddr, hoff] at hi'
        · rw [hrest.outside x (by omega)]
          exact hold x (by omega)
    · -- The copy is refused, and the position has moved.
      subst hm
      refine ⟨ret, 0, bytes.length, t₁, fun bound hbound rounds hrounds copied => ?_, hneg' hneg, hpos₁,
        Nat.zero_le _, havail, fun rounds hrounds => iff_of_false (fun h0 => hne h0.symm) ?_, fun h0 => absurd h0 hret,
        fun i hi => absurd hi (Nat.not_lt_zero i), hold⟩
      · obtain ⟨rounds, rfl⟩ := Nat.exists_eq_succ_of_ne_zero (by omega : rounds ≠ 0)
        rw [Nat.succ_eq_add_one, hstep bound hbound, if_pos (Or.inl hret)]
      · obtain ⟨rounds, rfl⟩ := Nat.exists_eq_succ_of_ne_zero (by omega : rounds ≠ 0)
        have hlimit := ops.gives_le (t.node d) rounds rfs (t.pos d + bytes.length) (len - bytes.length)
        rw [Nat.succ_eq_add_one, hgives]
        split
        · rintro (h0 | h0)
          · exact hne h0
          · exact hrange h0
        · rintro (h0 | h0)
          · omega
          · exact hrange (h0.front hbase (by omega) (Nat.pos_of_ne_zero hne))

/-! ## sysfile_write -/

/-- A run of the loop of `sysfile_write` that has written `k` bytes of the user. -/
structure WriteRun (ops : InodeOps σ ν) (t : Task σ ν) (d base k : Nat) (t' : Task σ ν) : Prop where
  pos : t'.pos d = t.pos d + k
  byte : ∀ i, i < k → ops.byte (t.node d) t'.fs ((t.pos d).toNat + i) = t.mem (base + i)
  keeps : ∀ x, x < ops.size (t.node d) t.fs → x < (t.pos d).toNat ∨ (t.pos d).toNat + k ≤ x →
    ops.byte (t.node d) t'.fs x = ops.byte (t.node d) t.fs x
  size : (t.pos d).toNat ≤ ops.size (t.node d) t.fs →
    ops.size (t.node d) t'.fs = max (ops.size (t.node d) t.fs) ((t.pos d).toNat + k)
  mono : ops.size (t.node d) t.fs ≤ ops.size (t.node d) t'.fs
  inside : 0 < k → 0 ≤ t.pos d ∧ (t.pos d).toNat + k ≤ ops.size (t.node d) t'.fs
  mem : t'.mem = t.mem

/-- Nothing is written. -/
theorem WriteRun.none (hfs : t'.fs = t.fs) (hfile : t'.file = t.file) (hmem : t'.mem = t.mem) :
    WriteRun ops t d base 0 t' := by
  refine ⟨?_, fun i hi => absurd hi (Nat.not_lt_zero i), fun x _ _ => ?_, fun hle => ?_, ?_,
    fun h0 => absurd h0 (Nat.lt_irrefl 0), hmem⟩
  · rw [Task.pos, hfile]
    exact (add_zero _).symm
  · rw [hfs]
  · rw [hfs, Nat.add_zero, max_eq_left hle]
  · rw [hfs]

/-- A run that goes on where another has ended. -/
theorem WriteRun.append {t₁ : Task σ ν} (h : WriteRun ops t d base n t₁) (hn : 0 < n)
    (hnode : t₁.node d = t.node d) (h' : WriteRun ops t₁ d (base + n) k t') :
    WriteRun ops t d base (n + k) t' := by
  obtain ⟨hneg, hend⟩ := h.inside hn
  have hpos := h.pos
  have hat : (t₁.pos d).toNat = (t.pos d).toNat + n := by omega
  have hbyte := h'.byte
  have hkeeps := h'.keeps
  have hsize := h'.size
  have hmono := h'.mono
  have hinside := h'.inside
  rw [hnode, hat] at hbyte hkeeps hsize hinside
  rw [hnode] at hmono
  refine ⟨?_, fun i hi => ?_, fun x hx hout => ?_, fun hle => ?_, h.mono.trans hmono, fun _ => ⟨hneg, ?_⟩,
    h'.mem.trans h.mem⟩
  · rw [h'.pos, hpos, Nat.cast_add, add_assoc]
  · by_cases hin : i < n
    · rw [hkeeps _ (by omega) (by omega)]
      exact h.byte i hin
    · have hi' := hbyte (i - n) (by omega)
      rw [h.mem] at hi'
      have hoff : (t.pos d).toNat + n + (i - n) = (t.pos d).toNat + i := by omega
      have haddr : base + n + (i - n) = base + i := by omega
      rwa [hoff, haddr] at hi'
  · rw [hkeeps x (hx.trans_le h.mono) (by omega)]
    exact h.keeps x hx (by omega)
  · rw [hsize hend, h.size hle]
    omega
  · rw [hsize hend]
    omega

/-- One transfer of `file_write` from a buffer that holds the bytes of the user. -/
theorem writeRun_moved {buf : List UInt8} {t₁ : Task σ ν} (hsame : t.SameFiles t₁) (hmem : t₁.mem = t.mem)
    (hbuf : ∀ i, i < buf.length → buf.getD i 0 = t.mem (base + i)) :
    WriteRun ops t d base (ops.vopWrite (t.node d) t.fs (t.pos d) buf).2.1
      (t₁.moved d (ops.vopWrite (t.node d) t.fs (t.pos d) buf).2.2
        (ops.vopWrite (t.node d) t.fs (t.pos d) buf).2.1) := by
  have hle := ops.write_le (t.node d) t.fs (t.pos d) buf
  refine ⟨?_, fun i hi => ?_, ops.write_keeps _ _ _ _, ops.write_size _ _ _ _, ops.write_mono _ _ _ _,
    fun hpos => ⟨?_, ops.write_end _ _ _ _ hpos⟩, hmem⟩
  · rw [t₁.moved_pos, Task.pos, hsame.file]
    rfl
  · calc ops.byte (t.node d) (ops.vopWrite (t.node d) t.fs (t.pos d) buf).2.2 ((t.pos d).toNat + i)
        = buf.getD i 0 := ops.write_byte _ _ _ _ i hi
      _ = t.mem (base + i) := hbuf i (hi.trans_le hle)
  · by_contra hneg
    have hnone := ops.write_neg (t.node d) t.fs (t.pos d) buf (Int.not_le.1 hneg)
    omega

theorem writeLoop_spec (h : Opened t fd d) (hok : t.Ok) (hwrite : (t.file d).writable = true)
    (hbase : base < 2 ^ 64) (hlen : len < 2 ^ 64) : ∃ ret k t',
      (∀ bound, userTop ≤ bound → ∀ rounds, len < rounds → ∀ copied,
        writeLoop ops bound fd rounds t base len copied = done (ret, copied + k, t')) ∧
      ret ≤ 0 ∧ WriteRun ops t d base k t' := by
  induction len using Nat.strong_induction_on generalizing t base with
  | _ len ih =>
    by_cases hzero : len = 0
    · subst hzero
      refine ⟨0, 0, t, fun bound _ rounds hrounds copied => ?_, le_rfl, WriteRun.none rfl rfl rfl⟩
      obtain ⟨rounds, rfl⟩ := Nat.exists_eq_add_of_lt hrounds
      rw [writeLoop, if_pos rfl]
      rfl
    have hpart := alenOf_le len
    obtain ⟨ok, t₁, hcopy, hrange, hsame, hmem⟩ :=
      @copyFromUser_spec _ _ t (alenOf len) base false hok hbase (by omega)
    cases ok with
    | false =>
        refine ⟨-eInval, 0, t₁, fun bound hbound rounds hrounds copied => ?_, by decide,
          WriteRun.none hsame.fs hsame.file hmem⟩
        obtain ⟨rounds, rfl⟩ := Nat.exists_eq_succ_of_ne_zero (by omega : rounds ≠ 0)
        simp only [writeLoop, if_neg hzero, hcopy bound hbound, bind_done, if_true,
          pure_eq_done, Nat.add_zero]
    | true =>
        have hopen₁ : Opened t₁ fd d := h.congr fun e => by rw [hsame.file]
        have hfile := @fileWrite_eq _ _ ops t₁ fd d hopen₁ hsame.ok (by rw [hsame.file]; exact hwrite)
          (Block.bytes t.mem base (alenOf len))
        have hnode₁ : t₁.node d = t.node d := by rw [Task.node, hsame.file]; rfl
        have hpos₁ : t₁.pos d = t.pos d := by rw [Task.pos, hsame.file]; rfl
        rw [hnode₁, hsame.fs, hpos₁] at hfile
        have hbuf : ∀ i, i < (Block.bytes t.mem base (alenOf len)).length →
            (Block.bytes t.mem base (alenOf len)).getD i 0 = t.mem (base + i) := by
          intro i hi
          rw [Vfs.length_bytes] at hi
          simp [Block.bytes, hi]
        have hround := @writeRun_moved _ _ ops t d base _ t₁ hsame hmem hbuf
        have hle := ops.write_le (t.node d) t.fs (t.pos d) (Block.bytes t.mem base (alenOf len))
        have hneg := ops.write_ret (t.node d) t.fs (t.pos d) (Block.bytes t.mem base (alenOf len))
        rw [Vfs.length_bytes] at hle
        generalize ops.vopWrite (t.node d) t.fs (t.pos d) (Block.bytes t.mem base (alenOf len)) = write at *
        obtain ⟨ret, n, fs⟩ := write
        dsimp only at *
        have hassert : n ≤ len := hle.trans hpart
        have hstep : ∀ bound, userTop ≤ bound → ∀ rounds copied,
            writeLoop ops bound fd (rounds + 1) t base len copied =
              if ret ≠ 0 ∨ n = 0 then done (ret, copied + n, t₁.moved d fs n)
              else writeLoop ops bound fd rounds (t₁.moved d fs n) ((base + n) % 2 ^ 64) (len - n)
                (copied + n) := by
          intro bound hbound rounds copied
          simp only [writeLoop, if_neg hzero, hcopy bound hbound, bind_done, if_true, Bool.true_eq_false,
            if_false, hfile, Outcome.assert, if_pos hassert, pure_eq_done]
        by_cases hlast : ret ≠ 0 ∨ n = 0
        · refine ⟨ret, n, t₁.moved d fs n, fun bound hbound rounds hrounds copied => ?_, hneg, hround⟩
          obtain ⟨rounds, rfl⟩ := Nat.exists_eq_succ_of_ne_zero (by omega : rounds ≠ 0)
          rw [Nat.succ_eq_add_one, hstep bound hbound, if_pos hlast]
        · have hmore : 0 < n := Nat.pos_of_ne_zero fun h0 => hlast (Or.inr h0)
          -- The bytes of the round are in the buffer, which does not wrap around.
          have hwrap := ((hrange.1 rfl).no_wrap hbase (by omega)).2
          obtain ⟨ret', k, t', hrun, hneg', hrest⟩ := ih (len - n) (by omega)
            (hopen₁.moved fs n) (hsame.ok.moved d fs n)
            (by rw [← hwrite, ← hsame.file]; simp [Task.moved])
            (show base + n < 2 ^ 64 by omega) (by omega)
          refine ⟨ret', n + k, t', fun bound hbound rounds hrounds copied => ?_, hneg',
            hround.append hmore ((t₁.moved_node d fs n).trans hnode₁) hrest⟩
          obtain ⟨rounds, rfl⟩ := Nat.exists_eq_succ_of_ne_zero (by omega : rounds ≠ 0)
          rw [Nat.succ_eq_add_one, hstep bound hbound, if_neg hlast,
            Nat.mod_eq_of_lt (show base + n < 2 ^ 64 by omega), hrun bound hbound rounds (by omega),
            Nat.add_assoc]

/-! ## The calls -/

/-- What a read is to do: the first `r` bytes of the file from the old position go to the user, the
position moves by `r`, and without an error all is as after one transfer of `file_read`. -/
structure ReadMeets (ops : InodeOps σ ν) (t : Task σ ν) (memory : Bool) (fd : Int) (base len : Nat)
    (r : Int) (t' : Task σ ν) : Prop where
  byte : ∀ i, i < r.toNat →
    t'.mem (base + i) = ops.byte (t.node fd.toNat) t.fs ((t.pos fd.toNat).toNat + i)
  outside : ∀ x, x < base ∨ base + r.toNat ≤ x → t'.mem x = t.mem x
  position : t'.pos fd.toNat = t.pos fd.toNat + r.toNat
  single : memory = true → ∀ copied t₁ bytes t₂,
    Returns (fun bound => readLoop ops bound fd bound t base len 0) (0, copied, t₁) →
    fileRead ops t fd len = done (0, bytes, t₂) →
    r = bytes.length ∧ t'.pos fd.toNat = t₂.pos fd.toNat ∧
      ∀ i, i < bytes.length → t'.mem (base + i) = bytes.getD i 0

/-- What a write is to do: the first `r` bytes of the user go into the file from the old position on, and
the position moves by `r`. -/
structure WriteMeets (ops : InodeOps σ ν) (t : Task σ ν) (fd : Int) (base : Nat) (r : Int)
    (t' : Task σ ν) : Prop where
  byte : ∀ i, i < r.toNat →
    ops.byte (t.node fd.toNat) t'.fs ((t.pos fd.toNat).toNat + i) = t.mem (base + i)
  keeps : ∀ x, x < ops.size (t.node fd.toNat) t.fs →
    x < (t.pos fd.toNat).toNat ∨ (t.pos fd.toNat).toNat + r.toNat ≤ x →
    ops.byte (t.node fd.toNat) t'.fs x = ops.byte (t.node fd.toNat) t.fs x
  size : (t.pos fd.toNat).toNat ≤ ops.size (t.node fd.toNat) t.fs →
    ops.size (t.node fd.toNat) t'.fs =
      max (ops.size (t.node fd.toNat) t.fs) ((t.pos fd.toNat).toNat + r.toNat)
  position : t'.pos fd.toNat = t.pos fd.toNat + r.toNat
  mem : t'.mem = t.mem

/-- The call is refused at once, or the user may write the bytes that the file gives. -/
def ReadFits (ops : InodeOps σ ν) (t : Task σ ν) (memory : Bool) (fd : Int) (base len : Nat) : Prop :=
  fileTestfd t fd true false = false ∨ memory = false ∨
    ops.gives (t.node fd.toNat) len t.fs (t.pos fd.toNat) len = 0 ∨
    UserRange t.areas true base (ops.gives (t.node fd.toNat) len t.fs (t.pos fd.toNat) len)

theorem fileTestfd_read (h : fileTestfd t fd true false = true) :
    ∃ d, Opened t fd d ∧ (t.file d).readable = true := by
  unfold fileTestfd at h
  split at h
  · cases h
  next d hd => exact ⟨d, opened_iff.1 hd, by simpa using h⟩

theorem fileTestfd_write (h : fileTestfd t fd false true = true) :
    ∃ d, Opened t fd d ∧ (t.file d).writable = true := by
  unfold fileTestfd at h
  split at h
  · cases h
  next d hd => exact ⟨d, opened_iff.1 hd, by simpa using h⟩

/-- `file_read` without an error is of a file that may be read. -/
theorem fileTestfd_of_fileRead {t₂ : Task σ ν} (h : fileRead ops t fd len = done (0, bytes, t₂)) :
    fileTestfd t fd true false = true := by
  unfold fileRead at h
  unfold fileTestfd
  split at h
  · cases h
  next d hd =>
    by_cases hread : (t.file d).readable = false
    · rw [if_pos hread] at h
      cases h
    · simpa using hread

theorem toInt_of_le (h : n ≤ sfsMaxFileSize) : toInt n = n := by
  have hmax : sfsMaxFileSize < 2 ^ 31 := by decide
  have hmod : n % 2 ^ 32 = n := Nat.mod_eq_of_lt (by omega)
  rw [toInt, hmod, if_pos (by omega)]

/-- The count, or the error when there is none. -/
theorem toNat_result (hret : ret ≤ 0) (h : n ≤ sfsMaxFileSize) :
    (if n ≠ 0 then toInt n else ret).toNat = n := by
  split
  · rw [toInt_of_le h, Int.toNat_natCast]
  next hn =>
    rw [not_not.1 hn]
    exact Int.toNat_of_nonpos hret

theorem InodeOps.avail_le_max (ops : InodeOps σ ν) (node : ν) (fs : σ) (pos : Int) (len : Nat) :
    ops.avail node fs pos len ≤ sfsMaxFileSize := by
  have hsize := ops.size_le node fs
  unfold avail
  split
  · exact Nat.zero_le _
  · omega

/-- Nothing has happened. -/
theorem ReadMeets.nothing {memory : Bool} {r : Int} (hr : r ≤ 0)
    (hsingle : memory = true → ∀ bytes t₂, fileRead ops t fd len = done (0, bytes, t₂) →
      r = 0 ∧ bytes.length = 0 ∧ t₂.pos fd.toNat = t.pos fd.toNat) :
    ReadMeets ops t memory fd base len r t := by
  have hzero := Int.toNat_of_nonpos hr
  refine ⟨fun i hi => absurd hi (by omega), fun _ _ => rfl, ?_, fun hmem copied t₁ bytes t₂ _ hread => ?_⟩
  · rw [hzero]
    exact (add_zero _).symm
  · obtain ⟨hr, hnone, hpos⟩ := hsingle hmem bytes t₂ hread
    refine ⟨by rw [hr, hnone]; rfl, hpos.symm, fun i hi => absurd hi (by omega)⟩

theorem WriteMeets.nothing {r : Int} (hr : r ≤ 0) : WriteMeets ops t fd base r t := by
  have hzero := Int.toNat_of_nonpos hr
  refine ⟨fun i hi => absurd hi (by omega), fun _ _ _ => rfl, fun hle => ?_, ?_, rfl⟩
  · rw [hzero, Nat.add_zero, max_eq_left hle]
  · rw [hzero]
    exact (add_zero _).symm

theorem sysfileRead_spec (hok : t.Ok) (memory : Bool) (fd : Int) (hbase : base < 2 ^ 64)
    (hlen : len < 2 ^ 64) : ∃ r t',
      Returns (fun bound => sysfileRead ops bound t memory fd base len) (r, t') ∧
      (ReadMeets ops t memory fd base len r t' ↔ ReadFits ops t memory fd base len) := by
  by_cases htest : fileTestfd t fd true false = false
  · refine ⟨if len = 0 then 0 else -eInval, t, ⟨0, fun bound _ => ?_⟩, iff_of_true ?_ (Or.inl htest)⟩
    · by_cases hzero : len = 0
      · simp only [sysfileRead, if_pos hzero, pure_eq_done]
      · simp only [sysfileRead, if_neg hzero, if_pos htest, pure_eq_done]
    · refine ReadMeets.nothing (by split <;> decide) fun _ bytes t₂ hread => ?_
      rw [fileTestfd_of_fileRead hread] at htest
      cases htest
  obtain ⟨d, hopen, hread⟩ := fileTestfd_read (Bool.not_eq_false _ ▸ htest)
  obtain rfl := hopen.eq_toNat
  have hone := @fileRead_eq _ _ ops _ _ _ hopen hok hread len
  by_cases hzero : len = 0
  · subst hzero
    refine ⟨0, t, ⟨0, fun bound _ => if_pos rfl⟩, iff_of_true ?_ (Or.inr (Or.inr (Or.inl ?_)))⟩
    · refine ReadMeets.nothing le_rfl fun _ bytes t₂ hread => ?_
      have hnone := (ops.read_le (t.node fd.toNat) t.fs (t.pos fd.toNat) 0).trans (Nat.min_le_left _ _)
      rw [hone] at hread
      simp only [done.injEq, Prod.mk.injEq] at hread
      obtain ⟨_, rfl, rfl⟩ := hread
      refine ⟨rfl, Nat.le_zero.1 hnone, ?_⟩
      rw [t.moved_pos, Nat.le_zero.1 hnone]
      exact add_zero _
    · exact Nat.le_zero.1 (ops.gives_le _ _ _ _ _)
  cases memory with
  | false =>
      refine ⟨-eNoMem, t, ⟨0, fun bound _ => ?_⟩, iff_of_true ?_ (Or.inr (Or.inl rfl))⟩
      · simp only [sysfileRead, if_neg hzero, if_neg htest, if_true, pure_eq_done]
      · exact ReadMeets.nothing (by decide) fun hmem => Bool.noConfusion hmem
  | true =>
      obtain ⟨ret, k, adv, t', hrun, hloop⟩ := @readLoop_spec _ _ ops t fd _ base len hopen hok hread hbase hlen
      have hcount := toNat_result hloop.neg (hloop.le.trans (hloop.avail.trans (ops.avail_le_max _ _ _ _)))
      have hreturns : Returns (fun bound => readLoop ops bound fd bound t base len 0) (ret, k, t') :=
        ⟨userTop + len + 1, fun bound hbound => by
          have h := hrun bound (by omega) bound (by omega) 0
          rwa [Nat.zero_add] at h⟩
      refine ⟨if k ≠ 0 then toInt k else ret, t', ?_, ?_⟩
      · obtain ⟨limit, hlimit⟩ := hreturns
        refine ⟨limit, fun bound hbound => ?_⟩
        simp only [sysfileRead, if_neg hzero, if_neg htest, Bool.true_eq_false, if_false, hlimit bound hbound,
          bind_done, pure_eq_done]
      · have hfits : ReadFits ops t true fd base len ↔ k = adv := by
          rw [hloop.exact len le_rfl]
          unfold ReadFits
          rw [or_iff_right htest, or_iff_right Bool.noConfusion]
        rw [hfits]
        constructor
        · intro hmeets
          have hpos := hmeets.position
          rw [hcount, hloop.pos] at hpos
          omega
        · intro heq
          refine ⟨fun i hi => hloop.byte i (hcount ▸ hi), fun x hx => hloop.outside x (hcount ▸ hx), ?_,
            fun _ copied t₁ bytes t₂ hret hfile => ?_⟩
          · rw [hcount, heq]
            exact hloop.pos
          · have hret := hreturns.unique hret
            rw [hone] at hfile
            simp only [Prod.mk.injEq, done.injEq] at hret hfile
            obtain ⟨hret₀, rfl, rfl⟩ := hret
            obtain ⟨hfile, rfl, rfl⟩ := hfile
            have hall := hloop.noError hret₀
            have hlength := ops.read_eq_avail _ _ _ _ hfile
            refine ⟨?_, ?_, fun i hi => ?_⟩
            · rw [← hall] at hlength
              rw [hlength]
              split
              · exact toInt_of_le (by rw [hall]; exact ops.avail_le_max _ _ _ _)
              next hk => rw [not_not.1 hk, hret₀]; rfl
            · rw [t.moved_pos, hlength, ← hall, heq]
              exact hloop.pos
            · rw [ops.read_byte _ _ _ _ i hi]
              exact hloop.byte i (by omega)

theorem sysfileWrite_spec (hok : t.Ok) (memory : Bool) (fd : Int) (hbase : base < 2 ^ 64)
    (hlen : len < 2 ^ 64) : ∃ r t',
      Returns (fun bound => sysfileWrite ops bound t memory fd base len) (r, t') ∧
      WriteMeets ops t fd base r t' := by
  by_cases hzero : len = 0
  · exact ⟨0, t, ⟨0, fun bound _ => if_pos hzero⟩, WriteMeets.nothing le_rfl⟩
  by_cases htest : fileTestfd t fd false true = false
  · refine ⟨-eInval, t, ⟨0, fun bound _ => ?_⟩, WriteMeets.nothing (by decide)⟩
    simp only [sysfileWrite, if_neg hzero, if_pos htest, pure_eq_done]
  cases memory with
  | false =>
      refine ⟨-eNoMem, t, ⟨0, fun bound _ => ?_⟩, WriteMeets.nothing (by decide)⟩
      simp only [sysfileWrite, if_neg hzero, if_neg htest, if_true, pure_eq_done]
  | true =>
      obtain ⟨d, hopen, hwrite⟩ := fileTestfd_write (Bool.not_eq_false _ ▸ htest)
      obtain rfl := hopen.eq_toNat
      obtain ⟨ret, k, t', hrun, hneg, hloop⟩ :=
        @writeLoop_spec _ _ ops t fd _ base len hopen hok hwrite hbase hlen
      have hle : k ≤ sfsMaxFileSize := by
        rcases Nat.eq_zero_or_pos k with rfl | hk
        · exact Nat.zero_le _
        · have hend := (hloop.inside hk).2
          have hsize := ops.size_le (t.node fd.toNat) t'.fs
          omega
      have hcount := toNat_result hneg hle
      refine ⟨if k ≠ 0 then toInt k else ret, t', ⟨userTop + len + 1, fun bound hbound => ?_⟩,
        fun i hi => hloop.byte i (hcount ▸ hi), fun x hx hout => hloop.keeps x hx (hcount ▸ hout),
        fun hin => ?_, ?_, hloop.mem⟩
      · simp only [sysfileWrite, if_neg hzero, if_neg htest, Bool.true_eq_false, if_false,
          hrun bound (by omega) bound (by omega) 0, Nat.zero_add, bind_done, pure_eq_done]
      · rw [hcount]
        exact hloop.size hin
      · rw [hcount]
        exact hloop.pos

/-- A file that is kept in memory. -/
structure ByteFile where
  size : Nat
  byte : Nat → UInt8
  size_le : size ≤ sfsMaxFileSize

/-- Reads of it end at its size. -/
def ByteFile.readAt (f : ByteFile) (pos : Int) (len : Nat) : Int × List UInt8 × ByteFile :=
  if pos < 0 then (-eInval, [], f)
  else (0, Block.bytes f.byte pos.toNat (min len (f.size - pos.toNat)), f)

/-- Writes to it end at the size that a file may have. -/
def ByteFile.writeAt (f : ByteFile) (pos : Int) (buf : List UInt8) : Int × Nat × ByteFile :=
  if pos < 0 then (-eInval, 0, f)
  else
    let n := min buf.length (sfsMaxFileSize - pos.toNat)
    (0, n,
      { size := if n = 0 then f.size else max f.size (pos.toNat + n)
        byte := Block.put f.byte pos.toNat (buf.take n)
        size_le := by
          have h := f.size_le
          split <;> omega })

theorem ByteFile.readAt_nonneg (f : ByteFile) {pos : Int} (h : ¬ pos < 0) (len : Nat) :
    f.readAt pos len = (0, Block.bytes f.byte pos.toNat (min len (f.size - pos.toNat)), f) := if_neg h

theorem ByteFile.readAt_same (f : ByteFile) (pos : Int) (len : Nat) : (f.readAt pos len).2.2 = f := by
  unfold readAt
  split <;> rfl

theorem neg_eInval_le : -eInval ≤ 0 := by decide

namespace ByteFile

variable (f : ByteFile) (pos : Int)

theorem readAt_ret (len : Nat) : (f.readAt pos len).1 ≤ 0 := by
  unfold readAt
  split
  · exact neg_eInval_le
  · exact le_rfl

theorem writeAt_ret (buf : List UInt8) : (f.writeAt pos buf).1 ≤ 0 := by
  unfold writeAt
  split
  · exact neg_eInval_le
  · exact le_rfl

theorem readAt_neg (len : Nat) (h : pos < 0) : (f.readAt pos len).2.1 = [] := by rw [readAt, if_pos h]

theorem readAt_le (len : Nat) : (f.readAt pos len).2.1.length ≤ min len (f.size - pos.toNat) := by
  by_cases h : pos < 0
  · rw [readAt, if_pos h]
    exact Nat.zero_le _
  · rw [f.readAt_nonneg h, Vfs.length_bytes]

theorem readAt_all (len : Nat) (hpos : 0 ≤ pos) :
    (f.readAt pos len).2.1.length = min len (f.size - pos.toNat) := by
  rw [f.readAt_nonneg (Int.not_lt.2 hpos), Vfs.length_bytes]

theorem readAt_byte (len i : Nat) (hi : i < (f.readAt pos len).2.1.length) :
    (f.readAt pos len).2.1.getD i 0 = f.byte (pos.toNat + i) := by
  by_cases h : pos < 0
  · rw [readAt, if_pos h] at hi
    cases hi
  · rw [f.readAt_nonneg h, Vfs.length_bytes] at hi
    rw [f.readAt_nonneg h]
    simp only [Block.bytes, List.getD_eq_getElem?_getD, List.getElem?_map, List.getElem?_range hi,
      Option.map_some, Option.getD_some]

variable (buf : List UInt8)

theorem writeAt_neg (h : pos < 0) : (f.writeAt pos buf).2.1 = 0 := by rw [writeAt, if_pos h]

theorem writeAt_le : (f.writeAt pos buf).2.1 ≤ buf.length := by
  unfold writeAt
  split
  · exact Nat.zero_le _
  · exact Nat.min_le_left _ _

theorem writeAt_end :
    0 < (f.writeAt pos buf).2.1 → pos.toNat + (f.writeAt pos buf).2.1 ≤ (f.writeAt pos buf).2.2.size := by
  unfold writeAt
  split
  · exact fun h => absurd h (Nat.lt_irrefl 0)
  · intro h
    dsimp only at h ⊢
    rw [if_neg (by omega)]
    exact le_max_right _ _

theorem writeAt_size (h : pos.toNat ≤ f.size) :
    (f.writeAt pos buf).2.2.size = max f.size (pos.toNat + (f.writeAt pos buf).2.1) := by
  unfold writeAt
  split
  · exact (max_eq_left (by omega)).symm
  · dsimp only
    split <;> omega

theorem writeAt_mono : f.size ≤ (f.writeAt pos buf).2.2.size := by
  unfold writeAt
  split
  · exact le_rfl
  · dsimp only
    split <;> omega

theorem writeAt_byte (i : Nat) :
    i < (f.writeAt pos buf).2.1 → (f.writeAt pos buf).2.2.byte (pos.toNat + i) = buf.getD i 0 := by
  unfold writeAt
  split
  · exact fun h => absurd h (Nat.not_lt_zero i)
  · intro h
    dsimp only at h ⊢
    rw [Block.put, if_pos ⟨Nat.le_add_right _ _, by rw [List.length_take]; omega⟩, Nat.add_sub_cancel_left,
      List.getD_eq_getElem?_getD, List.getElem?_take_of_lt h, List.getD_eq_getElem?_getD]

theorem writeAt_keeps (x : Nat) :
    x < pos.toNat ∨ pos.toNat + (f.writeAt pos buf).2.1 ≤ x → (f.writeAt pos buf).2.2.byte x = f.byte x := by
  unfold writeAt
  split
  · exact fun _ => rfl
  · intro h
    dsimp only at h ⊢
    rw [Block.put, if_neg (by rw [List.length_take]; omega)]

end ByteFile

/-- The operations of files in memory. -/
def byteOps : InodeOps ByteFile Unit where
  vopRead _ f pos len := f.readAt pos len
  vopWrite _ f pos buf := f.writeAt pos buf
  vfsClose _ f := f
  size _ f := f.size
  byte _ f := f.byte
  size_le _ f := f.size_le
  read_ret _ f pos len := f.readAt_ret pos len
  write_ret _ f pos buf := f.writeAt_ret pos buf
  read_neg _ f pos len h := f.readAt_neg pos len h
  read_le _ f pos len := f.readAt_le pos len
  read_all _ f pos len hpos _ := f.readAt_all pos len hpos
  read_byte _ f pos len i hi := f.readAt_byte pos len i hi
  read_size _ f pos len := congrArg ByteFile.size (f.readAt_same pos len)
  read_keeps _ f pos len := congrArg ByteFile.byte (f.readAt_same pos len)
  write_neg _ f pos buf h := f.writeAt_neg pos buf h
  write_le _ f pos buf := f.writeAt_le pos buf
  write_end _ f pos buf h := f.writeAt_end pos buf h
  write_size _ f pos buf h := f.writeAt_size pos buf h
  write_mono _ f pos buf := f.writeAt_mono pos buf
  write_byte _ f pos buf i h := f.writeAt_byte pos buf i h
  write_keeps _ f pos buf x _ h := f.writeAt_keeps pos buf x h

/-- A process with a file of one byte open. -/
def oneByte : Task ByteFile Unit where
  fs := { size := 1, byte := fun _ => 65, size_le := by decide }
  file := fun _ =>
    { status := FdStatus.opened, readable := true, writable := true, pos := 0, node := (), openCount := 1 }
  mm := some smallMm
  mem := fun _ => 0

theorem oneByte_ok : oneByte.Ok :=
  ⟨fun mm h => by cases h; exact smallMm_ok, fun _ _ => Int.zero_lt_one⟩

theorem gives_oneByte : byteOps.gives () 1 oneByte.fs 0 1 = 1 := by decide

/-- The user may not write to its program. -/
theorem not_userRange_oneByte : ¬ UserRange oneByte.areas true 0x200000 1 := by
  intro h
  obtain ⟨vma, hvma, ⟨hlow, _⟩, hperm⟩ := h.bytes 0x200000 le_rfl (by decide)
  rcases List.mem_cons.1 hvma with rfl | hvma
  · exact hperm.1 (by decide)
  · rw [List.mem_singleton] at hvma
    subst hvma
    exact absurd hlow (by decide)

end Transfer
end TriOS
