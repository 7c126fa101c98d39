import TriOS.Library.Memory
import TriOS.Library.Outcome

/-!
# dev_disk0.c, ide.c, ramdisk.c, sfs_io.c — from blocks to sectors

A block of the file system becomes an offset in bytes, the offset a block of the device, and the block a
number of sectors. Each step has types of its own, so each conversion is written out.
-/

namespace TriOS
namespace Disk0

open Outcome Memory

/-- `SECTSIZE` -/
def sectsize : Nat := 512

/-- `DISK0_BLKSIZE` -/
def disk0Blksize : Nat := 4096

/-- `SFS_BLKSIZE` -/
def sfsBlksize : Nat := 4096

/-- `DISK0_BUFSIZE` -/
def disk0Bufsize : Nat := 4 * disk0Blksize

/-- `DISK0_BLK_NSECT` -/
def disk0BlkNsect : Nat := disk0Blksize / sectsize

/-- `MAX_NSECS` -/
def maxNsecs : Nat := 128

/-- `MAX_DISK_NSECS` -/
def maxDiskNsecs : Nat := 0x10000000

/-- `-E_INVAL` -/
def errInval : Int := -3

/-- The `uint32_t` that the machine stores for `x`. -/
def u32 (x : Nat) : Nat := x % 2 ^ 32

/-- The `size_t` that the machine stores for `x`. -/
def u64 (x : Int) : Nat := (x % 2 ^ 64).toNat

/-- The device with its size in sectors, its bytes and the sectors that have been moved; `disk0_buffer`; and
the memory of the caller. -/
structure Sys where
  size : Nat
  disk : Nat → UInt8
  moved : List Nat
  disk0Buffer : Nat → UInt8
  mem : Nat → UInt8

/-- `struct iobuf` but for `io_len` -/
structure Iobuf where
  base : Nat
  offset : Int
  resid : Nat
  deriving DecidableEq, Repr

/-- The size that `ramdisk_init` finds for an image of `bytes` bytes. -/
def ramdiskSize (bytes : Nat) : Nat :=
  u32 bytes / sectsize

/-- `ramdisk_read` into `disk0_buffer` -/
def ramdiskRead (s : Sys) (secno nsecs : Nat) : Sys :=
  let nsecs := min nsecs (u64 (s.size - secno))
  { s with
    disk0Buffer := copy s.disk0Buffer 0 s.disk (secno * sectsize) (nsecs * sectsize)
    moved := s.moved ++ List.range' secno nsecs }

/-- `ramdisk_write` from `disk0_buffer` -/
def ramdiskWrite (s : Sys) (secno nsecs : Nat) : Sys :=
  let nsecs := min nsecs (u64 (s.size - secno))
  { s with
    disk := copy s.disk (secno * sectsize) s.disk0Buffer 0 (nsecs * sectsize)
    moved := s.moved ++ List.range' secno nsecs }

/-- `ide_read_secs` and `ide_write_secs` on a device that is valid -/
def ideSecs (move : Sys → Nat → Nat → Sys) (s : Sys) (secno nsecs : Nat) : Outcome Sys := do
  assert (nsecs ≤ maxNsecs)
  assert (secno < maxDiskNsecs ∧ secno + nsecs ≤ maxDiskNsecs)
  pure (move s secno nsecs)

/-- `disk0_read_blks_nolock` -/
def disk0ReadBlksNolock (s : Sys) (blkno nblks : Nat) : Outcome Sys :=
  ideSecs ramdiskRead s (u32 (blkno * disk0BlkNsect)) (u32 (nblks * disk0BlkNsect))

/-- `disk0_write_blks_nolock` -/
def disk0WriteBlksNolock (s : Sys) (blkno nblks : Nat) : Outcome Sys :=
  ideSecs ramdiskWrite s (u32 (blkno * disk0BlkNsect)) (u32 (nblks * disk0BlkNsect))

/-- `iobuf_skip` -/
def iobufSkip (iob : Iobuf) (n : Nat) : Outcome Iobuf := do
  assert (n ≤ iob.resid)
  pure { base := iob.base + n, offset := iob.offset + n, resid := iob.resid - n }

/-- `iobuf_move` between the iobuf and `disk0_buffer`; it gives the number of bytes copied. -/
def iobufMove (s : Sys) (iob : Iobuf) (len : Nat) (m2b : Bool) : Outcome (Nat × Iobuf × Sys) := do
  let alen := if iob.resid > len then len else iob.resid
  if alen > 0 then
    let s := if m2b then { s with mem := copy s.mem iob.base s.disk0Buffer 0 alen }
      else { s with disk0Buffer := copy s.disk0Buffer 0 s.mem iob.base alen }
    let iob ← iobufSkip iob alen
    pure (alen, iob, s)
  else pure (alen, iob, s)

/-- The loop of `disk0_io` -/
def disk0Loop (write : Bool) : Nat → Sys → Iobuf → Nat → Nat → Outcome Sys
  | bound, s, iob, resid, blkno =>
    if resid = 0 then pure s
    else match bound with
      | 0 => fuel
      | bound + 1 =>
          if write then do
            let (copied, iob, s) ← iobufMove s iob disk0Bufsize false
            assert (copied ≠ 0 ∧ copied ≤ resid ∧ copied % disk0Blksize = 0)
            let nblks := u32 (copied / disk0Blksize)
            let s ← disk0WriteBlksNolock s blkno nblks
            disk0Loop write bound s iob (resid - copied) (u32 (blkno + nblks))
          else do
            let alen := if disk0Bufsize > resid then resid else disk0Bufsize
            let nblks := u32 (alen / disk0Blksize)
            let s ← disk0ReadBlksNolock s blkno nblks
            let (copied, iob, s) ← iobufMove s iob alen true
            assert (copied = alen ∧ copied % disk0Blksize = 0)
            disk0Loop write bound s iob (resid - copied) (u32 (blkno + nblks))

/-- `disk0_io`; the device has `d_blocks` of `disk0_device_init`. -/
def disk0Io (s : Sys) (iob : Iobuf) (write : Bool) : Outcome (Int × Sys) :=
  let blkno := (iob.offset.tdiv disk0Blksize % 2 ^ 32).toNat
  let nblks := u32 (iob.resid / disk0Blksize)
  if iob.offset.tmod disk0Blksize ≠ 0 ∨ iob.resid % disk0Blksize ≠ 0 then pure (errInval, s)
  else if u32 (blkno + nblks) > s.size / disk0BlkNsect then pure (errInval, s)
  else if nblks = 0 then pure (0, s)
  else do
    let s ← disk0Loop write iob.resid s iob iob.resid blkno
    pure (0, s)

/-- `sfs_rwblock_nolock` in a file system of `blocks` blocks; `buf` is a place in the memory of the
caller. -/
def sfsRwblockNolock (blocks : Nat) (s : Sys) (buf blkno : Nat) (write check : Bool) : Outcome (Int × Sys) := do
  assert ((blkno ≠ 0 ∨ check = false) ∧ blkno < blocks)
  disk0Io s { base := buf, offset := u32 (blkno * sfsBlksize), resid := sfsBlksize } write

/-- `sfs_rwblock` -/
def sfsRwblock (blocks : Nat) (write : Bool) : Nat → Sys → Nat → Nat → Outcome (Int × Sys)
  | 0, s, _, _ => pure (0, s)
  | nblks + 1, s, buf, blkno => do
      let (ret, s) ← sfsRwblockNolock blocks s buf blkno write true
      if ret ≠ 0 then pure (ret, s)
      else sfsRwblock blocks write nblks s (buf + sfsBlksize) (u32 (blkno + 1))

/-! ## What a request is to do -/

variable {s t u : Sys} {iob : Iobuf} {b k n m buf bound blocks blkno nblks : Nat} {write check : Bool}

/-- The request has moved the sectors of `nblks` blocks from `blkno` on, in order and no others, between the
device and the memory from `buf` on. -/
structure Exact (write : Bool) (blkno nblks buf : Nat) (s t : Sys) : Prop where
  size : t.size = s.size
  moved : t.moved = s.moved ++ List.range' (8 * blkno) (8 * nblks)
  disk : t.disk = if write then copy s.disk (4096 * blkno) s.mem buf (4096 * nblks) else s.disk
  mem : t.mem = if write then s.mem else copy s.mem buf s.disk (4096 * blkno) (4096 * nblks)

theorem exact_zero : Exact write b 0 buf s s := by
  constructor <;> simp

/-- Two requests, the second one for the blocks behind the first. -/
theorem Exact.trans (h : Exact write b n buf s t) (h' : Exact write (b + n) m (buf + 4096 * n) t u) :
    Exact write b (n + m) buf s u := by
  refine ⟨h'.size.trans h.size, ?_, ?_, ?_⟩
  · rw [h'.moved, h.moved, List.append_assoc, Nat.mul_add, List.range'_append_1, ← Nat.mul_add]
  · cases write with
    | true => rw [h'.disk, h.disk, h.mem, if_pos rfl, if_pos rfl, if_pos rfl, if_pos rfl, Nat.mul_add, copy_copy,
        ← Nat.mul_add]
    | false => exact h'.disk.trans h.disk
  · cases write with
    | true => exact h'.mem.trans h.mem
    | false =>
        rw [h'.mem, h.disk, h.mem, if_neg Bool.false_ne_true, if_neg Bool.false_ne_true,
          if_neg Bool.false_ne_true, if_neg Bool.false_ne_true, Nat.mul_add, copy_copy, ← Nat.mul_add]

/-! ## One part of a request -/

/-- `ide_read_secs` and `ide_write_secs` get the sectors of the blocks. -/
theorem ideSecs_spec (move : Sys → Nat → Nat → Sys) (hk : 1 ≤ k) (hk4 : k ≤ 4)
    (hfit : 8 * (b + k) ≤ maxDiskNsecs) :
    ideSecs move s (u32 (b * disk0BlkNsect)) (u32 (k * disk0BlkNsect)) = done (move s (8 * b) (8 * k)) := by
  unfold maxDiskNsecs at hfit
  have hnsect : disk0BlkNsect = 8 := rfl
  have hsec : u32 (b * disk0BlkNsect) = 8 * b := by
    rw [hnsect, u32]
    omega
  have hnsecs : u32 (k * disk0BlkNsect) = 8 * k := by
    rw [hnsect, u32]
    omega
  have hmax : 8 * k ≤ maxNsecs := by
    unfold maxNsecs
    omega
  have hrange : 8 * b < maxDiskNsecs ∧ 8 * b + 8 * k ≤ maxDiskNsecs := by
    unfold maxDiskNsecs
    omega
  simp only [ideSecs, hsec, hnsecs, assert_of hmax, assert_of hrange, bind_done, pure_eq_done]

/-- The sectors are within the device. -/
theorem min_sectors (hsize : s.size ≤ maxDiskNsecs) (hfit : 8 * (b + k) ≤ s.size) :
    min (8 * k) (u64 (s.size - (8 * b : Nat))) = 8 * k := by
  unfold maxDiskNsecs at hsize
  unfold u64
  omega

theorem iobufSkip_done (h : n ≤ iob.resid) :
    iobufSkip iob n = done { base := iob.base + n, offset := iob.offset + n, resid := iob.resid - n } := by
  simp only [iobufSkip, assert_of h, bind_done, pure_eq_done]

/-- The buffer of the driver takes at most `DISK0_BUFSIZE` bytes of what is left. -/
theorem iobufMove_done {len : Nat} {m2b : Bool} (h : n = if iob.resid > len then len else iob.resid) (hn : 0 < n) :
    iobufMove s iob len m2b =
      done (n, { base := iob.base + n, offset := iob.offset + n, resid := iob.resid - n },
        if m2b then { s with mem := copy s.mem iob.base s.disk0Buffer 0 n }
          else { s with disk0Buffer := copy s.disk0Buffer 0 s.mem iob.base n }) := by
  have hle : n ≤ iob.resid := by
    rw [h]
    split <;> omega
  simp only [iobufMove, ← h, gt_iff_lt, if_pos hn, iobufSkip_done hle, bind_done, pure_eq_done]

/-- One part of a write. -/
theorem write_part (hsize : s.size ≤ maxDiskNsecs) (hfit : 8 * (b + k) ≤ s.size) :
    Exact true b k buf s
      (ramdiskWrite { s with disk0Buffer := copy s.disk0Buffer 0 s.mem buf (4096 * k) } (8 * b) (8 * k)) := by
  unfold ramdiskWrite
  dsimp only
  rw [min_sectors hsize hfit]
  refine ⟨rfl, rfl, ?_, rfl⟩
  have hbytes : 8 * k * sectsize = 4096 * k := by
    unfold sectsize
    omega
  have hplace : 8 * b * sectsize = 4096 * b := by
    unfold sectsize
    omega
  dsimp only
  rw [hbytes, hplace, copy_through, if_pos rfl]

/-- One part of a read. -/
theorem read_part (hsize : s.size ≤ maxDiskNsecs) (hfit : 8 * (b + k) ≤ s.size) :
    let t := ramdiskRead s (8 * b) (8 * k)
    Exact false b k buf s { t with mem := copy t.mem buf t.disk0Buffer 0 (4096 * k) } := by
  unfold ramdiskRead
  dsimp only
  rw [min_sectors hsize hfit]
  refine ⟨rfl, rfl, rfl, ?_⟩
  have hbytes : 8 * k * sectsize = 4096 * k := by
    unfold sectsize
    omega
  have hplace : 8 * b * sectsize = 4096 * b := by
    unfold sectsize
    omega
  dsimp only
  rw [hbytes, hplace, copy_through, if_neg Bool.false_ne_true]

/-! ## The request -/

/-- One turn of the loop of `disk0_io` moves the next four blocks, or what is left. -/
theorem disk0Loop_part (write : Bool) (bound : Nat) (hsize : s.size ≤ maxDiskNsecs) (hfit : 8 * (b + n) ≤ s.size) (hresid : iob.resid = 4096 * n)
    (hn : 0 < n) (hk : k = min n 4) :
    ∃ t, disk0Loop write (bound + 1) s iob (4096 * n) b = disk0Loop write bound t
        { base := iob.base + 4096 * k, offset := iob.offset + (4096 * k : Nat), resid := iob.resid - 4096 * k }
        (4096 * (n - k)) (b + k) ∧ Exact write b k iob.base s t := by
  have hk1 : 1 ≤ k := by omega
  have hk4 : k ≤ 4 := by omega
  have hpos : 0 < 4096 * k := by omega
  have hfitk : 8 * (b + k) ≤ s.size := by omega
  have hblks : u32 (4096 * k / disk0Blksize) = k := by
    unfold u32 disk0Blksize
    omega
  have hnext : u32 (b + k) = b + k := by
    unfold maxDiskNsecs at hsize
    unfold u32
    omega
  have hrest : 4096 * n - 4096 * k = 4096 * (n - k) := by omega
  have hnonzero : ¬ 4096 * n = 0 := by omega
  have hbuf : disk0Bufsize = 16384 := rfl
  cases write with
  | true =>
      have hcopied : 4096 * k = if iob.resid > disk0Bufsize then disk0Bufsize else iob.resid := by
        rw [hresid, hbuf]
        split <;> omega
      have hassert : 4096 * k ≠ 0 ∧ 4096 * k ≤ 4096 * n ∧ 4096 * k % disk0Blksize = 0 :=
        ⟨by omega, by omega, Nat.mul_mod_right _ _⟩
      refine ⟨_, ?_, write_part hsize hfitk⟩
      rw [disk0Loop, if_neg hnonzero, if_pos rfl, iobufMove_done hcopied hpos, bind_done]
      dsimp only
      rw [assert_of hassert, bind_done, hblks, disk0WriteBlksNolock, if_neg Bool.false_ne_true,
        ideSecs_spec _ hk1 hk4 (hfitk.trans hsize), bind_done, hrest, hnext]
  | false =>
      have halen : (if disk0Bufsize > 4096 * n then 4096 * n else disk0Bufsize) = 4096 * k := by
        rw [hbuf]
        split <;> omega
      have hmove : 4096 * k = if iob.resid > 4096 * k then 4096 * k else iob.resid := by
        rw [hresid]
        split <;> omega
      have hassert : 4096 * k = 4096 * k ∧ 4096 * k % disk0Blksize = 0 := ⟨rfl, Nat.mul_mod_right _ _⟩
      refine ⟨_, ?_, read_part hsize hfitk⟩
      rw [disk0Loop, if_neg hnonzero, if_neg Bool.false_ne_true, halen]
      dsimp only
      rw [hblks, disk0ReadBlksNolock,
        ideSecs_spec _ hk1 hk4 (hfitk.trans hsize), bind_done, iobufMove_done hmove hpos, bind_done]
      dsimp only
      rw [assert_of hassert, bind_done, if_pos rfl, hrest, hnext]

/-- The loop of `disk0_io` moves the blocks part by part. -/
theorem disk0Loop_spec (write : Bool) (bound : Nat) (hsize : s.size ≤ maxDiskNsecs) (hfit : 8 * (b + n) ≤ s.size) (hresid : iob.resid = 4096 * n)
    (hbound : 4096 * n ≤ bound) :
    ∃ t, disk0Loop write bound s iob (4096 * n) b = done t ∧ Exact write b n iob.base s t := by
  induction bound generalizing s iob b n with
  | zero =>
      have hn : n = 0 := by omega
      subst hn
      exact ⟨s, by simp [disk0Loop], exact_zero⟩
  | succ bound ih =>
      rcases Nat.eq_zero_or_pos n with rfl | hn
      · exact ⟨s, by simp [disk0Loop], exact_zero⟩
      · obtain ⟨k, hk⟩ : ∃ k, k = min n 4 := ⟨_, rfl⟩
        have hkn : n = k + (n - k) := by omega
        obtain ⟨t, hloop, ht⟩ := disk0Loop_part write bound hsize hfit hresid hn hk
        have hrest : (⟨iob.base + 4096 * k, iob.offset + (4096 * k : Nat), iob.resid - 4096 * k⟩ : Iobuf).resid =
            4096 * (n - k) := by
          show iob.resid - 4096 * k = 4096 * (n - k)
          omega
        have hfit' : 8 * (b + k + (n - k)) ≤ t.size := by
          rw [ht.size]
          omega
        obtain ⟨u, hu, hexact⟩ := ih (ht.size ▸ hsize) hfit' hrest (by omega)
        refine ⟨u, hloop.trans hu, ?_⟩
        rw [hkn]
        exact ht.trans hexact

/-- A request for whole blocks of the device, however many, moves exactly their sectors. -/
theorem disk0Io_spec (write : Bool) (buf : Nat) (hsize : s.size ≤ maxDiskNsecs) (hfit : b + n ≤ s.size / 8) :
    ∃ t, disk0Io s { base := buf, offset := (4096 * b : Nat), resid := 4096 * n } write = done (0, t) ∧
      Exact write b n buf s t := by
  have hmax : maxDiskNsecs = 268435456 := rfl
  have hblkno : (((4096 * b : Nat) : Int).tdiv disk0Blksize % 2 ^ 32).toNat = b := by
    rw [← Int.ofNat_tdiv]
    unfold disk0Blksize
    omega
  have hnblks : u32 (4096 * n / disk0Blksize) = n := by
    unfold u32 disk0Blksize
    omega
  have haligned : ¬ (((4096 * b : Nat) : Int).tmod disk0Blksize ≠ 0 ∨ 4096 * n % disk0Blksize ≠ 0) := by
    rw [← Int.ofNat_tmod]
    unfold disk0Blksize
    omega
  have hin : ¬ u32 (b + n) > s.size / disk0BlkNsect := by
    have hnsect : disk0BlkNsect = 8 := rfl
    rw [hnsect, u32]
    omega
  unfold disk0Io
  dsimp only
  rw [hblkno, hnblks, if_neg haligned, if_neg hin]
  by_cases hn : n = 0
  · exact ⟨s, if_pos hn, hn ▸ exact_zero⟩
  · obtain ⟨t, hloop, ht⟩ := disk0Loop_spec (b := b) (n := n) write (4096 * n) hsize (by omega)
      (show (⟨buf, (4096 * b : Nat), 4096 * n⟩ : Iobuf).resid = 4096 * n from rfl) le_rfl
    rw [if_neg hn, hloop]
    exact ⟨t, rfl, ht⟩

/-- The block that a request of the file system for block `blkno` reaches. -/
theorem sfsRwblockNolock_spec (buf : Nat) (write check : Bool) (hsize : s.size ≤ maxDiskNsecs) (hblocks : blocks ≤ s.size / 8)
    (hcheck : blkno ≠ 0 ∨ check = false) (hblk : blkno < blocks) :
    ∃ t, sfsRwblockNolock blocks s buf blkno write check = done (0, t) ∧
      Exact write (blkno % 2 ^ 20) 1 buf s t := by
  have hassert : (blkno ≠ 0 ∨ check = false) ∧ blkno < blocks := ⟨hcheck, hblk⟩
  have hoffset : u32 (blkno * sfsBlksize) = 4096 * (blkno % 2 ^ 20) := by
    unfold u32 sfsBlksize
    omega
  rw [sfsRwblockNolock, assert_of hassert, bind_done, hoffset]
  exact disk0Io_spec (n := 1) write buf hsize (by omega)

/-- A request for several blocks: it reaches the first `2 ^ 20` blocks only, and it is exact as long as it stays
among them. -/
theorem sfsRwblock_spec (buf : Nat) (write : Bool) (hsize : s.size ≤ maxDiskNsecs) (hblocks : blocks ≤ s.size / 8) (hblk : blkno ≠ 0)
    (hfit : blkno + nblks ≤ blocks) :
    ∃ t xs, sfsRwblock blocks write nblks s buf blkno = done (0, t) ∧ t.moved = s.moved ++ xs ∧
      (∀ x ∈ xs, x < 8 * 2 ^ 20) ∧ (blkno + nblks ≤ 2 ^ 20 → Exact write blkno nblks buf s t) := by
  induction nblks generalizing s buf blkno with
  | zero => exact ⟨s, [], rfl, by simp, by simp, fun _ => exact_zero⟩
  | succ nblks ih =>
      unfold maxDiskNsecs at hsize
      obtain ⟨t, hone, ht⟩ := sfsRwblockNolock_spec buf write true hsize hblocks (Or.inl hblk) (by omega)
      have hnext : u32 (blkno + 1) = blkno + 1 := by
        unfold u32
        omega
      obtain ⟨u, xs, hrest, hmoved, hreach, hexact⟩ := ih (buf + sfsBlksize) (ht.size ▸ hsize) (ht.size ▸ hblocks)
        (Nat.succ_ne_zero blkno) (by omega)
      refine ⟨u, List.range' (8 * (blkno % 2 ^ 20)) 8 ++ xs, ?_, ?_, fun x hx => ?_, fun hle => ?_⟩
      · rw [sfsRwblock, hone, bind_done, hnext]
        exact hrest
      · rw [hmoved, ht.moved, List.append_assoc]
      · rcases List.mem_append.1 hx with hx | hx
        · rw [List.mem_range'_1] at hx
          omega
        · exact hreach x hx
      · have hmod : blkno % 2 ^ 20 = blkno := Nat.mod_eq_of_lt (by omega)
        rw [hmod] at ht
        rw [Nat.add_comm nblks 1]
        exact ht.trans (hexact (by omega))

/-! ## The addresses -/

/-- On every device that the driver of disks admits, and for every block of a file system that fits the device:
a request for a block reaches exactly the sectors of the block if and only if the product in bytes fits 32 bits,
and the same holds for a request for several blocks. The driver below is exact for whatever request. -/
theorem block_addressing (hsize : s.size ≤ maxDiskNsecs) (hblocks : blocks ≤ s.size / 8) :
    (∀ buf blkno write check, blkno ≠ 0 ∨ check = false → blkno < blocks →
      ((∃ t, sfsRwblockNolock blocks s buf blkno write check = done (0, t) ∧ Exact write blkno 1 buf s t) ↔
        blkno < 2 ^ 20)) ∧
    (∀ buf blkno nblks write, blkno ≠ 0 → nblks ≠ 0 → blkno + nblks ≤ blocks →
      ((∃ t, sfsRwblock blocks write nblks s buf blkno = done (0, t) ∧ Exact write blkno nblks buf s t) ↔
        blkno + nblks ≤ 2 ^ 20)) ∧
    ∀ buf b n write, b + n ≤ s.size / 8 →
      ∃ t, disk0Io s { base := buf, offset := (4096 * b : Nat), resid := 4096 * n } write = done (0, t) ∧
        Exact write b n buf s t := by
  refine ⟨fun buf blkno write check hcheck hblk => ?_, fun buf blkno nblks write hblk hnblks hfit => ?_,
    fun buf b n write hfit => disk0Io_spec write buf hsize hfit⟩
  · obtain ⟨t, hrun, ht⟩ := sfsRwblockNolock_spec buf write check hsize hblocks hcheck hblk
    constructor
    · rintro ⟨t', hrun', ht'⟩
      cases hrun'.symm.trans hrun
      have hsame := List.append_cancel_left (ht.moved.symm.trans ht'.moved)
      have hfirst := (List.cons.inj hsame).1
      omega
    · intro hlt
      rw [Nat.mod_eq_of_lt hlt] at ht
      exact ⟨t, hrun, ht⟩
  · obtain ⟨t, xs, hrun, hmoved, hreach, hexact⟩ := sfsRwblock_spec buf write hsize hblocks hblk hfit
    constructor
    · rintro ⟨t', hrun', ht'⟩
      cases hrun'.symm.trans hrun
      have hsame := List.append_cancel_left (hmoved.symm.trans ht'.moved)
      have hlast := hreach (8 * (blkno + nblks - 1)) (by
        rw [hsame, List.mem_range'_1]
        omega)
      omega
    · intro hle
      exact ⟨t, hrun, hexact hle⟩

/-- A device of the largest size. -/
def largest : Sys :=
  { size := 2 ^ 28, disk := fun _ => 0, moved := [], disk0Buffer := fun _ => 0, mem := fun _ => 0 }

theorem largest_blocks : largest.size ≤ maxDiskNsecs ∧ 2 ^ 25 ≤ largest.size / 8 := by
  decide

/-- On a file system that takes all of the largest device, block 1 is written where it belongs. -/
theorem block_addressing_largest :
    ∃ t, sfsRwblockNolock (2 ^ 25) largest 0 1 true true = done (0, t) ∧ Exact true 1 1 0 largest t :=
  ((block_addressing largest_blocks.1 largest_blocks.2).1 0 1 true true (Or.inl (by decide)) (by decide)).2
    (by decide)

/-- A write of block `2 ^ 20` of that file system overwrites the super block. -/
theorem block_addressing_wraps :
    ∃ t, sfsRwblockNolock (2 ^ 25) largest 0 (2 ^ 20) true true = done (0, t) ∧
      t.moved = [0, 1, 2, 3, 4, 5, 6, 7] ∧ ¬ Exact true (2 ^ 20) 1 0 largest t := by
  obtain ⟨t, hrun, ht⟩ := sfsRwblockNolock_spec 0 true true largest_blocks.1 largest_blocks.2
    (Or.inl (show (2 ^ 20 : Nat) ≠ 0 by decide)) (by decide)
  refine ⟨t, hrun, ht.moved, fun hexact => ?_⟩
  have hsame := List.append_cancel_left (ht.moved.symm.trans hexact.moved)
  exact absurd (List.cons.inj hsame).1 (by decide)

/-- The disk in memory is never that large: `ramdisk_init` keeps 32 bits of its length in bytes. -/
theorem ramdisk_blocks (bytes : Nat) : ramdiskSize bytes / 8 < 2 ^ 20 := by
  unfold ramdiskSize u32 sectsize
  omega

end Disk0
end TriOS
