import TriOS.Fs.BitmapRuns
import TriOS.Fs.BlockMap
import TriOS.Fs.Sfs

/-!
# sfs_fs.c — mounting a file system

`sfs_do_mount` on a device with any content. What it allocates is named by its part in the file system that is
mounted, and `requests` says which of the next requests to `kmalloc` and to the device fail.
-/

namespace TriOS
namespace Mount

open Hoare
open Vfs (Block Halt Never sfsBlksize leNat)

/-- `SFS_MAGIC` -/
def sfsMagic : UInt32 := 0x2f8dbe2a

/-- `SFS_BLKBITS` -/
def sfsBlkbits : Nat := 32768

/-- `SFS_MAX_INFO_LEN` -/
def sfsMaxInfoLen : Nat := 31

/-- `SFS_BLKN_SUPER` -/
def sfsBlknSuper : Nat := 0

/-- `SFS_BLKN_FREEMAP` -/
def sfsBlknFreemap : Nat := 2

/-- What `sfs_do_mount` allocates. -/
inductive Piece where
  | fs
  | sfsBuffer
  | hashList
  | bitmap
  | map
  deriving DecidableEq, Repr

/-- `struct device`, with its content. -/
structure Device where
  dBlocks : Nat
  dBlocksize : Nat
  disk : Nat → Block

/-- The answers to the next requests, what is allocated, and `*fs_store`. -/
structure State where
  requests : List Nat
  heap : List Piece
  fsStore : Option SfsFs

/-- Code that mounts a file system. -/
abbrev MountM := StateT State (Except Halt)

/-- The result of a function of the bitmap. -/
def ofOutcome {α : Type} : Outcome α → MountM α
  | Outcome.done a => pure a
  | Outcome.panic => throw Halt.panic
  | Outcome.wrap => throw Halt.wrap
  | Outcome.fuel => throw Halt.fuel

/-- `kmalloc`, whether it succeeds. -/
def kmalloc (p : Piece) : MountM Bool := do
  let s ← get
  let ok := s.requests.headD 0 == 0
  set { s with requests := s.requests.tail, heap := if ok then p :: s.heap else s.heap }
  pure ok

/-- `kfree` -/
def kfree (p : Piece) : MountM Unit := do
  let s ← get
  if p ∈ s.heap then set { s with heap := s.heap.erase p } else throw Halt.wrap

/-- `sfs_init_read`. The offset in bytes is a 32-bit product, and the device refuses what is behind its end. -/
def sfsInitRead (dev : Device) (blkno : Nat) : MountM (Int × Block) := do
  let s ← get
  set { s with requests := s.requests.tail }
  let blk := blkno * sfsBlksize % 2 ^ 32 / sfsBlksize
  if s.requests.headD 0 ≠ 0 ∨ dev.dBlocks < blk + 1 then pure (-eInval, fun _ => 0)
  else pure (0, dev.disk blk)

/-! ## The data on the device -/

/-- The `struct sfs_super` in a block. -/
def decodeSuper (block : Block) : SfsSuper where
  magic := UInt32.ofNat (leNat (block.bytes 0 4))
  blocks := UInt32.ofNat (leNat (block.bytes 4 4))
  unusedBlocks := UInt32.ofNat (leNat (block.bytes 8 4))
  info := block.bytes 12 (sfsMaxInfoLen + 1)

/-- A word of a block. -/
def blockWord (block : Block) (i : Nat) : UInt32 := UInt32.ofNat (leNat (block.bytes (4 * i) 4))

/-- The words of a block in a page. -/
def blkWords : Nat := 1024

/-- `sfs_freemap_bits`, which is converted to the type of `blocks`. -/
def sfsFreemapBits (super : SfsSuper) : Nat :=
  (super.blocks.toNat + sfsBlkbits - 1) / sfsBlkbits * sfsBlkbits % 2 ^ 32

/-- `sfs_freemap_blocks` -/
def sfsFreemapBlocks (super : SfsSuper) : Nat := (super.blocks.toNat + sfsBlkbits - 1) / sfsBlkbits

theorem le_map_range (freemap : Bitmap) (f : Nat → UInt32) :
    freemap.nbits ≤ ((List.range freemap.map.length).map f).length * wordBits := by
  rw [List.length_map, List.length_range]
  exact freemap.nbits_le

/-- The map with the block `k` of its words read into it. -/
def loadBlock (freemap : Bitmap) (k : Nat) (block : Block) : Bitmap where
  nbits := freemap.nbits
  map := (List.range freemap.map.length).map fun i =>
    if i / blkWords = k then blockWord block (i % blkWords) else freemap.map.getD i 0
  nbits_le := le_map_range freemap _

/-- The loop of `sfs_init_freemap`: `nblks` more blocks, from `blkno` on into the map from its block `k` on. -/
def loadLoop (dev : Device) : Nat → Nat → Nat → Bitmap → MountM (Int × Bitmap)
  | 0, _, _, freemap => pure (0, freemap)
  | nblks + 1, blkno, k, freemap => do
      let (ret, block) ← sfsInitRead dev blkno
      if ret ≠ 0 then pure (ret, freemap)
      else loadLoop dev nblks (blkno + 1) (k + 1) (loadBlock freemap k block)

/-- `sfs_init_freemap` -/
def sfsInitFreemap (dev : Device) (freemap : Bitmap) (blkno nblks : Nat) : MountM (Int × Bitmap) := do
  ofOutcome (Outcome.assert (4 * freemap.map.length = nblks * sfsBlksize % 2 ^ 32))
  loadLoop dev nblks blkno 0 freemap

/-- The loop of `sfs_do_mount` that counts the free blocks: `rounds` more bits from `i` on. -/
def countLoop (freemap : Bitmap) : Nat → Nat → Nat → Outcome Nat
  | 0, _, unused => Outcome.done unused
  | rounds + 1, i, unused => do
      let free ← bitmapTest freemap i
      countLoop freemap rounds (i + 1) (if free then unused + 1 else unused)

/-! ## sfs_do_mount -/

/-- `bitmap_create`, with the two pieces that it allocates. -/
def createFreemap (nbits : Nat) : MountM (Option Bitmap) := do
  let first ← kmalloc Piece.bitmap
  let second ← (if first = true then kmalloc Piece.map else pure false)
  (if first = true ∧ second = false then kfree Piece.bitmap else pure ())
  ofOutcome (bitmapCreate nbits first second)

/-- `failed_cleanup_fs` -/
def cleanupFs (ret : Int) : MountM Int := do
  kfree Piece.fs
  pure ret

/-- `failed_cleanup_sfs_buffer` -/
def cleanupSfsBuffer (ret : Int) : MountM Int := do
  kfree Piece.sfsBuffer
  cleanupFs ret

/-- `failed_cleanup_hash_list` -/
def cleanupHashList (ret : Int) : MountM Int := do
  kfree Piece.hashList
  cleanupSfsBuffer ret

/-- `failed_cleanup_freemap`, with `bitmap_destroy`. -/
def cleanupFreemap (ret : Int) : MountM Int := do
  kfree Piece.map
  kfree Piece.bitmap
  cleanupHashList ret

/-- The end of `sfs_do_mount`: the free blocks are counted, and the file system is stored. -/
def mountCounted (super : SfsSuper) (freemap : Bitmap) : MountM Int := do
  let unused ← ofOutcome (countLoop freemap (sfsFreemapBits super) 0 0)
  ofOutcome (Outcome.assert (unused = super.unusedBlocks.toNat))
  let s ← get
  set { s with
    fsStore := some
      { super := super, freemap := freemap, superDirty := false, inode := fun _ => none, inodeList := []
        hashList := fun _ => [] } }
  pure 0

/-- `sfs_do_mount` from the map of free blocks on. -/
def mountFreemap (dev : Device) (super : SfsSuper) : MountM Int := do
  match ← createFreemap (sfsFreemapBits super) with
  | none => cleanupHashList (-eNoMem)
  | some freemap => do
      let (ret, freemap) ← sfsInitFreemap dev freemap sfsBlknFreemap (sfsFreemapBlocks super)
      if ret ≠ 0 then cleanupFreemap ret else mountCounted super freemap

/-- `sfs_do_mount` from the super block on. -/
def mountSuper (dev : Device) (super : SfsSuper) : MountM Int := do
  if super.magic ≠ sfsMagic then cleanupSfsBuffer (-eInval)
  else if dev.dBlocks < super.blocks.toNat then cleanupSfsBuffer (-eInval)
  else do
    let super := { super with info := super.info.set sfsMaxInfoLen 0 }
    let ok ← kmalloc Piece.hashList
    if ok = true then mountFreemap dev super else cleanupSfsBuffer (-eNoMem)

/-- `sfs_do_mount` -/
def sfsDoMount (dev : Device) : MountM Int := do
  if dev.dBlocksize ≠ sfsBlksize then pure (-eNaDev)
  else do
    let ok ← kmalloc Piece.fs
    if ok = true then do
      let ok ← kmalloc Piece.sfsBuffer
      if ok = true then do
        let (ret, block) ← sfsInitRead dev sfsBlknSuper
        if ret ≠ 0 then cleanupSfsBuffer ret else mountSuper dev (decodeSuper block)
      else cleanupFs (-eNoMem)
    else pure (-eNoMem)

/-! ## One operation -/

section Operations

variable {E : Halt → Prop} {s : State} {p : Piece} {heap : List Piece} {ret : Int}

/-- A request is answered. -/
def State.next (s : State) : State := { s with requests := s.requests.tail }

/-- A request is answered with memory for `p`. -/
def State.took (s : State) (p : Piece) : State := { s with requests := s.requests.tail, heap := p :: s.heap }

theorem triple_kmalloc {Q : Bool → State → Prop} :
    Triple E (kmalloc p) s Q ↔ if s.requests.headD 0 = 0 then Q true (s.took p) else Q false s.next := by
  change Q (s.requests.headD 0 == 0)
    { s with requests := s.requests.tail, heap := if (s.requests.headD 0 == 0) = true then p :: s.heap else s.heap } ↔ _
  by_cases h : s.requests.headD 0 = 0
  · have hbeq : (s.requests.headD 0 == 0) = true := beq_iff_eq.2 h
    rw [hbeq, if_pos rfl, if_pos h]
    exact Iff.rfl
  · have hbeq : (s.requests.headD 0 == 0) = false := beq_eq_false_iff_ne.2 h
    rw [hbeq, if_neg Bool.false_ne_true, if_neg h]
    exact Iff.rfl

theorem triple_kfree {Q : Unit → State → Prop} (h : s.heap = p :: heap) :
    Triple E (kfree p) s Q ↔ Q () { s with heap := heap } := by
  have hmem : p ∈ s.heap := h ▸ List.mem_cons_self
  change Triple E (if p ∈ s.heap then set { s with heap := s.heap.erase p } else throw Halt.wrap) s Q ↔ _
  rw [if_pos hmem, h, List.erase_cons_head]
  exact Iff.rfl

variable {Q : Int → State → Prop}

theorem triple_cleanupFs (h : s.heap = Piece.fs :: heap) :
    Triple E (cleanupFs ret) s Q ↔ Q ret { s with heap := heap } := by
  unfold cleanupFs
  rw [triple_bind, triple_kfree h]
  exact Iff.rfl

theorem triple_cleanupSfsBuffer (h : s.heap = Piece.sfsBuffer :: Piece.fs :: heap) :
    Triple E (cleanupSfsBuffer ret) s Q ↔ Q ret { s with heap := heap } := by
  unfold cleanupSfsBuffer
  rw [triple_bind, triple_kfree h, triple_cleanupFs rfl]

theorem triple_cleanupHashList (h : s.heap = Piece.hashList :: Piece.sfsBuffer :: Piece.fs :: heap) :
    Triple E (cleanupHashList ret) s Q ↔ Q ret { s with heap := heap } := by
  unfold cleanupHashList
  rw [triple_bind, triple_kfree h, triple_cleanupSfsBuffer rfl]

theorem triple_cleanupFreemap
    (h : s.heap = Piece.map :: Piece.bitmap :: Piece.hashList :: Piece.sfsBuffer :: Piece.fs :: heap) :
    Triple E (cleanupFreemap ret) s Q ↔ Q ret { s with heap := heap } := by
  unfold cleanupFreemap
  rw [triple_bind, triple_kfree h, triple_bind, triple_kfree rfl, triple_cleanupHashList rfl]

/-- A block is read when the device answers and has it. -/
theorem triple_sfsInitRead {dev : Device} {blkno : Nat} {Q : Int × Block → State → Prop} (hblk : blkno < 2 ^ 20) :
    Triple E (sfsInitRead dev blkno) s Q ↔
      if s.requests.headD 0 = 0 ∧ blkno < dev.dBlocks then Q (0, dev.disk blkno) s.next
      else Q (-eInval, fun _ => 0) s.next := by
  have hoff : blkno * sfsBlksize % 2 ^ 32 / sfsBlksize = blkno := by
    unfold sfsBlksize
    omega
  change Triple E (if s.requests.headD 0 ≠ 0 ∨ dev.dBlocks < blkno * sfsBlksize % 2 ^ 32 / sfsBlksize + 1
    then pure (-eInval, fun _ => 0) else pure (0, dev.disk (blkno * sfsBlksize % 2 ^ 32 / sfsBlksize))) s.next Q ↔ _
  rw [hoff]
  by_cases h : s.requests.headD 0 = 0 ∧ blkno < dev.dBlocks
  · have hn : ¬ (s.requests.headD 0 ≠ 0 ∨ dev.dBlocks < blkno + 1) := by
      have hlt := h.2
      rintro (hne | hge)
      · exact hne h.1
      · omega
    rw [if_neg hn, if_pos h]
    exact Iff.rfl
  · have hn : s.requests.headD 0 ≠ 0 ∨ dev.dBlocks < blkno + 1 := by
      by_contra hcon
      rw [not_or, not_not] at hcon
      exact h ⟨hcon.1, by omega⟩
    rw [if_pos hn, if_neg h]
    exact Iff.rfl

end Operations

/-! ## The loops -/

section Loops

variable {E : Halt → Prop} {s : State} {dev : Device} {freemap : Bitmap} {Q : Int × Bitmap → State → Prop}

/-- The first `n` requests are answered. -/
def Answered (requests : List Nat) (n : Nat) : Prop := ∀ k < n, requests.getD k 0 = 0

theorem answered_succ {requests : List Nat} {n : Nat} :
    Answered requests (n + 1) ↔ requests.headD 0 = 0 ∧ Answered requests.tail n := by
  have hhead : requests.getD 0 0 = requests.headD 0 := by cases requests <;> rfl
  have htail : ∀ k, requests.getD (k + 1) 0 = requests.tail.getD k 0 := by
    intro k
    cases requests <;> rfl
  constructor
  · intro h
    exact ⟨hhead ▸ h 0 n.succ_pos, fun k hk => htail k ▸ h (k + 1) (Nat.succ_lt_succ hk)⟩
  · rintro ⟨h, h'⟩ k hk
    cases k with
    | zero => exact hhead.trans h
    | succ k => exact (htail k).trans (h' k (Nat.lt_of_succ_lt_succ hk))

/-- The words of the device from the block `blkno` on. -/
def diskWord (dev : Device) (blkno i : Nat) : UInt32 := blockWord (dev.disk (blkno + i / blkWords)) (i % blkWords)

/-- The map with `n` blocks of its words read into it, from its block `k` on. -/
def loaded (dev : Device) (blkno k n : Nat) (freemap : Bitmap) : Bitmap where
  nbits := freemap.nbits
  map := (List.range freemap.map.length).map fun i =>
    if k ≤ i / blkWords ∧ i / blkWords < k + n then blockWord (dev.disk (blkno + (i / blkWords - k))) (i % blkWords)
    else freemap.map.getD i 0
  nbits_le := le_map_range freemap _

theorem map_getD_range (words : List UInt32) : ((List.range words.length).map fun i => words.getD i 0) = words := by
  refine List.ext_getElem ?_ fun i h h' => ?_
  · rw [List.length_map, List.length_range]
  · rw [List.getElem_map, List.getElem_range, List.getD_eq_getElem?_getD, List.getElem?_eq_getElem h', Option.getD_some]

theorem loaded_zero (dev : Device) (blkno k : Nat) (freemap : Bitmap) : loaded dev blkno k 0 freemap = freemap := by
  refine Bitmap.ext_of rfl (Eq.trans (List.map_congr_left fun i _ => ?_) (map_getD_range freemap.map))
  have hno : ¬ (k ≤ i / blkWords ∧ i / blkWords < k + 0) := by omega
  exact if_neg hno

theorem loadBlock_length (freemap : Bitmap) (k : Nat) (block : Block) :
    (loadBlock freemap k block).map.length = freemap.map.length := by
  unfold loadBlock
  rw [List.length_map, List.length_range]

theorem loadBlock_getD {freemap : Bitmap} {k i : Nat} {block : Block} (hi : i < freemap.map.length) :
    (loadBlock freemap k block).map.getD i 0 =
      if i / blkWords = k then blockWord block (i % blkWords) else freemap.map.getD i 0 := by
  unfold loadBlock
  have hi' : i < (List.range freemap.map.length).length := List.length_range.symm ▸ hi
  rw [List.getD_eq_getElem?_getD, List.getElem?_map, List.getElem?_eq_getElem hi', List.getElem_range]
  rfl

theorem loaded_succ (dev : Device) (blkno k n : Nat) (freemap : Bitmap) :
    loaded dev (blkno + 1) (k + 1) n (loadBlock freemap k (dev.disk blkno)) = loaded dev blkno k (n + 1) freemap := by
  refine Bitmap.ext_of rfl ?_
  refine Eq.trans (congrArg (List.map _) (congrArg List.range (loadBlock_length freemap k _))) ?_
  refine List.map_congr_left fun i hi => ?_
  rw [loadBlock_getD (List.mem_range.1 hi)]
  rcases Nat.lt_trichotomy (i / blkWords) k with hlt | heq | hgt
  · have hno : ¬ (k + 1 ≤ i / blkWords ∧ i / blkWords < k + 1 + n) := by omega
    have hno' : ¬ (k ≤ i / blkWords ∧ i / blkWords < k + (n + 1)) := by omega
    rw [if_neg hno, if_neg hno', if_neg hlt.ne]
  · have hno : ¬ (k + 1 ≤ i / blkWords ∧ i / blkWords < k + 1 + n) := by omega
    have hyes : k ≤ i / blkWords ∧ i / blkWords < k + (n + 1) := by omega
    rw [if_neg hno, if_pos hyes, if_pos heq, heq, Nat.sub_self, Nat.add_zero]
  · have hiff : k + 1 ≤ i / blkWords ∧ i / blkWords < k + 1 + n ↔
        k ≤ i / blkWords ∧ i / blkWords < k + (n + 1) := by omega
    have hsub : blkno + 1 + (i / blkWords - (k + 1)) = blkno + (i / blkWords - k) := by omega
    rw [if_neg hgt.ne', hsub]
    exact if_congr hiff rfl rfl

/-- The freemap is read when the device answers and has all its blocks. -/
theorem triple_loadLoop_done {n blkno k : Nat} (hblk : blkno + n ≤ 2 ^ 20) (hans : Answered s.requests n)
    (hdev : blkno + n ≤ dev.dBlocks) :
    Triple E (loadLoop dev n blkno k freemap) s Q ↔
      Q (0, loaded dev blkno k n freemap) { s with requests := s.requests.drop n } := by
  induction n generalizing blkno k freemap s with
  | zero =>
      rw [loaded_zero]
      exact Iff.rfl
  | succ n ih =>
      obtain ⟨hhead, htail⟩ := answered_succ.1 hans
      unfold loadLoop
      rw [triple_bind, triple_sfsInitRead (by omega), if_pos ⟨hhead, by omega⟩]
      dsimp only
      have hmore : Triple E (loadLoop dev n (blkno + 1) (k + 1) (loadBlock freemap k (dev.disk blkno))) s.next Q ↔ _ :=
        ih (by omega) htail (by omega)
      rw [if_neg (not_not.2 rfl), hmore, loaded_succ, State.next, List.drop_tail]

/-- Without the answer to a request, or with a block that the device does not have, the loop gives up. -/
theorem triple_loadLoop_failed {n blkno k : Nat} (hblk : blkno + n ≤ 2 ^ 20)
    (hbad : ¬ (Answered s.requests n ∧ (0 < n → blkno + n ≤ dev.dBlocks))) :
    Triple E (loadLoop dev n blkno k freemap) s fun x t =>
      x.1 = -eInval ∧ t.heap = s.heap ∧ t.fsStore = s.fsStore := by
  induction n generalizing blkno k freemap s with
  | zero => exact absurd ⟨fun k hk => absurd hk (Nat.not_lt_zero k), fun h => absurd h (Nat.lt_irrefl 0)⟩ hbad
  | succ n ih =>
      unfold loadLoop
      rw [triple_bind, triple_sfsInitRead (by omega)]
      by_cases hread : s.requests.headD 0 = 0 ∧ blkno < dev.dBlocks
      · rw [if_pos hread]
        dsimp only
        rw [if_neg (not_not.2 rfl)]
        refine ih (s := s.next) (by omega) fun hrest => hbad ⟨answered_succ.2 ⟨hread.1, hrest.1⟩, fun _ => ?_⟩
        -- the block that was read is in the device, and so are those that follow
        rcases Nat.eq_zero_or_pos n with rfl | hpos
        · exact hread.2
        · have hin := hrest.2 hpos
          omega
      · rw [if_neg hread]
        exact ⟨rfl, rfl, rfl⟩

/-- The free blocks of a map. -/
def freeBlocks (freemap : Bitmap) : Finset Nat := (Finset.range freemap.nbits).filter fun i => freemap.bit i = true

theorem countLoop_done {rounds i unused : Nat} (h : i + rounds = freemap.nbits) :
    countLoop freemap rounds i unused =
      Outcome.done (unused + ((Finset.Ico i freemap.nbits).filter fun j => freemap.bit j = true).card) := by
  induction rounds generalizing i unused with
  | zero =>
      have hempty : Finset.Ico i freemap.nbits = ∅ := Finset.Ico_eq_empty (by omega)
      rw [hempty, Finset.filter_empty, Finset.card_empty]
      rfl
  | succ rounds ih =>
      have hsplit : Finset.Ico i freemap.nbits = insert i (Finset.Ico (i + 1) freemap.nbits) := by
        rw [Finset.insert_Ico_add_one_left_eq_Ico (by omega)]
      have hout : i ∉ (Finset.Ico (i + 1) freemap.nbits).filter fun j => freemap.bit j = true := by
        intro hmem
        have hle := (Finset.mem_Ico.1 (Finset.mem_filter.1 hmem).1).1
        omega
      unfold countLoop
      rw [bitmapTest_spec (by omega), Outcome.bind_done, ih (by omega), hsplit, Finset.filter_insert]
      cases hbit : freemap.bit i with
      | false => rw [if_neg Bool.false_ne_true, if_neg Bool.false_ne_true]
      | true =>
          rw [if_pos rfl, if_pos rfl, Finset.card_insert_of_notMem hout]
          congr 1
          omega

end Loops

/-! ## Mounting is all or nothing -/

/-- The super block of the device. -/
def deviceSuper (dev : Device) : SfsSuper := decodeSuper (dev.disk sfsBlknSuper)

/-- The super block with its text terminated. -/
def terminated (super : SfsSuper) : SfsSuper := { super with info := super.info.set sfsMaxInfoLen 0 }

/-- The map of free blocks that the device holds. -/
def deviceFreemap (dev : Device) : List UInt32 :=
  (List.range (bitmapWords (sfsFreemapBits (deviceSuper dev)))).map (diskWord dev sfsBlknFreemap)

/-- The mounted file system is the one on the device. -/
structure Mounted (dev : Device) (fs : SfsFs) : Prop where
  super : fs.super = terminated (deviceSuper dev)
  nbits : fs.freemap.nbits = sfsFreemapBits (deviceSuper dev)
  map : fs.freemap.map = deviceFreemap dev
  unused : fs.super.unusedBlocks.toNat = (freeBlocks fs.freemap).card
  blocks : fs.super.blocks.toNat ≤ dev.dBlocks
  inodeList : fs.inodeList = []

/-- An error, when `reason` allows one, with nothing left allocated and nothing stored; or the file system of the
device is stored. -/
def AllOrNothing (reason : Prop) (dev : Device) (s : State) (ret : Int) (t : State) : Prop :=
  (reason ∧ ret < 0 ∧ t.heap = s.heap ∧ t.fsStore = s.fsStore) ∨
    (ret = 0 ∧ ∃ fs, t.fsStore = some fs ∧ Mounted dev fs ∧
      t.heap = [Piece.map, Piece.bitmap, Piece.hashList, Piece.sfsBuffer, Piece.fs] ++ s.heap)

/-- The checks of `sfs_do_mount` are passed, and its first four requests are answered. -/
structure Accepted (dev : Device) (s : State) : Prop where
  blocksize : dev.dBlocksize = sfsBlksize
  answered : Answered s.requests 4
  readable : 0 < dev.dBlocks
  magic : (deviceSuper dev).magic = sfsMagic
  blocks : (deviceSuper dev).blocks.toNat ≤ dev.dBlocks

/-- The whole map of free blocks is read. -/
def Loads (dev : Device) (s : State) : Prop :=
  Answered s.requests (sfsFreemapBlocks (deviceSuper dev) + 6) ∧
    sfsBlknFreemap + sfsFreemapBlocks (deviceSuper dev) ≤ dev.dBlocks

theorem le_deviceFreemap (dev : Device) :
    sfsFreemapBits (deviceSuper dev) ≤ (deviceFreemap dev).length * wordBits := by
  unfold deviceFreemap
  rw [List.length_map, List.length_range]
  exact le_bitmapWords _

/-- The map of the device, as a bitmap. -/
def deviceBitmap (dev : Device) : Bitmap where
  nbits := sfsFreemapBits (deviceSuper dev)
  map := deviceFreemap dev
  nbits_le := le_deviceFreemap dev

/-- What no check refuses: the super block counts some blocks, fewer than make the size of the map wrap around, and
counts as many unused blocks as the map has. -/
def Consistent (dev : Device) (s : State) : Prop :=
  0 < (deviceSuper dev).blocks.toNat ∧ (deviceSuper dev).blocks.toNat ≤ 2 ^ 32 - sfsBlkbits ∧
    (Loads dev s → (deviceSuper dev).unusedBlocks.toNat = (freeBlocks (deviceBitmap dev)).card)

section Mounting

variable {dev : Device} {s t : State} {super : SfsSuper} {ret : Int} {reason : Prop}

/-- The state in which the map of free blocks is made. -/
def State.accepted (s : State) : State :=
  (((s.took Piece.fs).took Piece.sfsBuffer).next).took Piece.hashList

theorem allOrNothing_of_error (h : reason) (hret : ret < 0) (hheap : t.heap = s.heap)
    (hstore : t.fsStore = s.fsStore) : AllOrNothing reason dev s ret t :=
  Or.inl ⟨h, hret, hheap, hstore⟩

theorem triple_mountSuper_of_bad (hreason : reason)
    (h : (deviceSuper dev).magic ≠ sfsMagic ∨ dev.dBlocks < (deviceSuper dev).blocks.toNat)
    (hheap : t.heap = Piece.sfsBuffer :: Piece.fs :: s.heap) (hstore : t.fsStore = s.fsStore) :
    Triple Never (mountSuper dev (deviceSuper dev)) t (AllOrNothing reason dev s) := by
  have hback : Triple Never (cleanupSfsBuffer (-eInval)) t (AllOrNothing reason dev s) := by
    rw [triple_cleanupSfsBuffer hheap]
    exact allOrNothing_of_error hreason (by decide) rfl hstore
  unfold mountSuper
  by_cases hmagic : (deviceSuper dev).magic ≠ sfsMagic
  · rw [if_pos hmagic]
    exact hback
  · rw [if_neg hmagic, if_pos (h.resolve_left hmagic)]
    exact hback

/-- Up to the map of free blocks every failure is undone. -/
theorem triple_sfsDoMount_iff (hreason : ¬ (Accepted dev s ∧ Loads dev s) → reason) :
    Triple Never (sfsDoMount dev) s (AllOrNothing reason dev s) ↔
      (Accepted dev s → Triple Never (mountFreemap dev (terminated (deviceSuper dev))) s.accepted
        (AllOrNothing reason dev s)) := by
  have hfour : Answered s.requests 4 ↔ s.requests.headD 0 = 0 ∧ s.requests.tail.headD 0 = 0 ∧
      s.requests.tail.tail.headD 0 = 0 ∧ s.requests.tail.tail.tail.headD 0 = 0 := by
    rw [answered_succ, answered_succ, answered_succ, answered_succ]
    have hnone : Answered s.requests.tail.tail.tail.tail 0 := fun k hk => absurd hk (Nat.not_lt_zero k)
    simp only [hnone, and_true]
  have hreason' : ¬ Accepted dev s → reason := fun hno => hreason fun h => hno h.1
  unfold sfsDoMount
  by_cases hblk : dev.dBlocksize = sfsBlksize
  swap
  · have hno : ¬ Accepted dev s := fun hacc => hblk hacc.blocksize
    rw [if_pos hblk]
    exact iff_of_true (allOrNothing_of_error (hreason' hno) (by decide) rfl rfl) fun hacc => absurd hacc hno
  rw [if_neg (not_not.2 hblk), triple_bind, triple_kmalloc]
  by_cases h0 : s.requests.headD 0 = 0
  swap
  · have hno : ¬ Accepted dev s := fun hacc => h0 (hfour.1 hacc.answered).1
    rw [if_neg h0, if_neg Bool.false_ne_true]
    exact iff_of_true (allOrNothing_of_error (hreason' hno) (by decide) rfl rfl) fun hacc => absurd hacc hno
  rw [if_pos h0, if_pos rfl, triple_bind, triple_kmalloc]
  by_cases h1 : (s.took Piece.fs).requests.headD 0 = 0
  swap
  · have hno : ¬ Accepted dev s := fun hacc => h1 (hfour.1 hacc.answered).2.1
    rw [if_neg h1, if_neg Bool.false_ne_true, triple_cleanupFs rfl]
    exact iff_of_true (allOrNothing_of_error (hreason' hno) (by decide) rfl rfl) fun hacc => absurd hacc hno
  rw [if_pos h1, if_pos rfl, triple_bind, triple_sfsInitRead (by decide)]
  by_cases h2 : ((s.took Piece.fs).took Piece.sfsBuffer).requests.headD 0 = 0 ∧ sfsBlknSuper < dev.dBlocks
  swap
  · have hno : ¬ Accepted dev s := fun hacc => h2 ⟨(hfour.1 hacc.answered).2.2.1, hacc.readable⟩
    rw [if_neg h2]
    dsimp only
    rw [if_pos (by decide), triple_cleanupSfsBuffer rfl]
    exact iff_of_true (allOrNothing_of_error (hreason' hno) (by decide) rfl rfl) fun hacc => absurd hacc hno
  rw [if_pos h2]
  dsimp only
  rw [if_neg (not_not.2 rfl)]
  by_cases hbad : (deviceSuper dev).magic ≠ sfsMagic ∨ dev.dBlocks < (deviceSuper dev).blocks.toNat
  · have hno : ¬ Accepted dev s := by
      intro hacc
      rcases hbad with hmagic | hlarge
      · exact hmagic hacc.magic
      · exact Nat.not_le.2 hlarge hacc.blocks
    exact iff_of_true (triple_mountSuper_of_bad (hreason' hno) hbad rfl rfl) fun hacc => absurd hacc hno
  obtain ⟨hmagic, hblocks⟩ := not_or.1 hbad
  change Triple Never (mountSuper dev (deviceSuper dev)) _ _ ↔ _
  unfold mountSuper
  rw [if_neg hmagic, if_neg hblocks, triple_bind, triple_kmalloc]
  by_cases h3 : (((s.took Piece.fs).took Piece.sfsBuffer).next).requests.headD 0 = 0
  swap
  · have hno : ¬ Accepted dev s := fun hacc => h3 (hfour.1 hacc.answered).2.2.2
    rw [if_neg h3, if_neg Bool.false_ne_true, triple_cleanupSfsBuffer rfl]
    exact iff_of_true (allOrNothing_of_error (hreason' hno) (by decide) rfl rfl) fun hacc => absurd hacc hno
  rw [if_pos h3, if_pos rfl]
  have hacc : Accepted dev s :=
    ⟨hblk, hfour.2 ⟨h0, h1, h2.1, h3⟩, h2.2, not_not.1 hmagic, Nat.not_lt.1 hblocks⟩
  exact ⟨fun h _ => h, fun h => h hacc⟩

/-! ### The map of free blocks -/

theorem sfsFreemapBits_eq (hle : super.blocks.toNat ≤ 2 ^ 32 - sfsBlkbits) :
    sfsFreemapBits super = sfsFreemapBlocks super * sfsBlkbits ∧ sfsFreemapBlocks super * sfsBlkbits < 2 ^ 32 := by
  unfold sfsFreemapBits sfsFreemapBlocks sfsBlkbits at *
  omega

theorem sfsFreemapBits_eq_zero
    (h : ¬ (0 < super.blocks.toNat ∧ super.blocks.toNat ≤ 2 ^ 32 - sfsBlkbits)) : sfsFreemapBits super = 0 := by
  have hlt := super.blocks.toNat_lt
  unfold sfsFreemapBits sfsBlkbits at *
  omega

theorem sfsFreemapBlocks_pos (h : 0 < super.blocks.toNat) : 0 < sfsFreemapBlocks super := by
  unfold sfsFreemapBlocks sfsBlkbits
  omega

theorem triple_ofOutcome_done {α : Type} {E : Halt → Prop} {a : α} {Q : α → State → Prop} :
    Triple E (ofOutcome (Outcome.done a)) s Q ↔ Q a s := Iff.rfl

theorem triple_ofOutcome_panic {α : Type} {Q : α → State → Prop} :
    Triple Never (ofOutcome (Outcome.panic : Outcome α)) s Q ↔ False := Iff.rfl

/-- A map without bits is refused with an assertion. -/
theorem not_triple_createFreemap_zero {Q : Option Bitmap → State → Prop} :
    ¬ Triple Never (createFreemap 0) s Q := by
  have hpanic : ∀ first second, bitmapCreate 0 first second = Outcome.panic := fun first second => rfl
  unfold createFreemap
  rw [triple_bind, triple_kmalloc]
  split
  · rw [if_pos rfl, triple_bind, triple_kmalloc]
    split
    · rw [triple_bind, if_neg (by decide), triple_pure, hpanic]
      exact id
    · rw [triple_bind, if_pos (by decide), triple_kfree rfl, hpanic]
      exact id
  · rw [if_neg Bool.false_ne_true, triple_bind, triple_pure, triple_bind, if_neg (by decide), triple_pure, hpanic]
    exact id

/-- The bitmap with all its bits set. -/
def fullBitmap (nbits : Nat) : Bitmap := { nbits := nbits, map := fullMap nbits, nbits_le := le_fullMap nbits }

theorem bitmapCreate_whole {nbits : Nat} (hpos : 0 < nbits) (hlt : nbits < 2 ^ 32)
    (hwhole : nbits = bitmapWords nbits * wordBits) :
    bitmapCreate nbits true true = Outcome.done (some (fullBitmap nbits)) := by
  have hsize : nbits ≠ 0 ∧ nbits < (nbits + wordBits) % 2 ^ 64 := by
    unfold wordBits
    omega
  unfold bitmapCreate
  rw [Outcome.assert_of hsize, Outcome.bind_done, if_neg (by decide), if_neg (by decide), if_neg (not_not.2 hwhole)]
  rfl

theorem triple_createFreemap {nbits : Nat} {E : Halt → Prop} {Q : Option Bitmap → State → Prop} (hpos : 0 < nbits)
    (hlt : nbits < 2 ^ 32) (hwhole : nbits = bitmapWords nbits * wordBits) :
    Triple E (createFreemap nbits) s Q ↔
      if s.requests.headD 0 = 0 then
        if s.requests.tail.headD 0 = 0 then Q (some (fullBitmap nbits)) ((s.took Piece.bitmap).took Piece.map)
        else Q none { s with requests := s.requests.tail.tail }
      else Q none s.next := by
  unfold createFreemap
  rw [triple_bind, triple_kmalloc]
  by_cases h : s.requests.headD 0 = 0
  · rw [if_pos h, if_pos h, if_pos rfl, triple_bind, triple_kmalloc]
    change (if s.requests.tail.headD 0 = 0 then _ else _) ↔ _
    by_cases h' : s.requests.tail.headD 0 = 0
    · rw [if_pos h', if_pos h', triple_bind, if_neg (by decide), triple_pure, bitmapCreate_whole hpos hlt hwhole]
      exact triple_ofOutcome_done
    · rw [if_neg h', if_neg h', triple_bind, if_pos (by decide), triple_kfree rfl,
        bitmapCreate_none hpos hlt (Or.inr rfl)]
      exact triple_ofOutcome_done
  · rw [if_neg h, if_neg h, if_neg Bool.false_ne_true, triple_bind, triple_pure, triple_bind, if_neg (by decide),
      triple_pure, bitmapCreate_none hpos hlt (Or.inl rfl)]
    exact triple_ofOutcome_done

/-- The map that is read is the one on the device. -/
theorem loaded_fullBitmap (hle : (deviceSuper dev).blocks.toNat ≤ 2 ^ 32 - sfsBlkbits) :
    loaded dev sfsBlknFreemap 0 (sfsFreemapBlocks (deviceSuper dev)) (fullBitmap (sfsFreemapBits (deviceSuper dev))) =
      deviceBitmap dev := by
  have hbits := (sfsFreemapBits_eq hle).1
  have hlen : (fullMap (sfsFreemapBits (deviceSuper dev))).length = bitmapWords (sfsFreemapBits (deviceSuper dev)) := by
    unfold fullMap
    rw [List.length_replicate]
  refine Bitmap.ext_of rfl ?_
  refine Eq.trans (congrArg (List.map _) (congrArg List.range hlen)) (List.map_congr_left fun i hi => ?_)
  have hlast : i < bitmapWords (sfsFreemapBits (deviceSuper dev)) := List.mem_range.1 hi
  have hin : 0 ≤ i / blkWords ∧ i / blkWords < 0 + sfsFreemapBlocks (deviceSuper dev) := by
    rw [hbits] at hlast
    unfold bitmapWords wordBits sfsBlkbits blkWords at *
    omega
  rw [if_pos hin]
  rfl

/-- With the map read, the mount succeeds when the count is right and stops when it is not. -/
theorem triple_mountCounted_iff
    (hheap : t.heap = [Piece.map, Piece.bitmap, Piece.hashList, Piece.sfsBuffer, Piece.fs] ++ s.heap)
    (hdev : (deviceSuper dev).blocks.toNat ≤ dev.dBlocks) :
    Triple Never (mountCounted (terminated (deviceSuper dev)) (deviceBitmap dev)) t (AllOrNothing reason dev s) ↔
      (deviceSuper dev).unusedBlocks.toNat = (freeBlocks (deviceBitmap dev)).card := by
  have hcount : countLoop (deviceBitmap dev) (sfsFreemapBits (terminated (deviceSuper dev))) 0 0 =
      Outcome.done (freeBlocks (deviceBitmap dev)).card := by
    have hall : 0 + sfsFreemapBits (deviceSuper dev) = (deviceBitmap dev).nbits := Nat.zero_add _
    refine (countLoop_done hall).trans (congrArg Outcome.done ?_)
    rw [Nat.zero_add, freeBlocks, Finset.range_eq_Ico]
  unfold mountCounted
  rw [triple_bind, hcount, triple_ofOutcome_done, triple_bind]
  by_cases hunused : (deviceSuper dev).unusedBlocks.toNat = (freeBlocks (deviceBitmap dev)).card
  · have hassert : (freeBlocks (deviceBitmap dev)).card = (terminated (deviceSuper dev)).unusedBlocks.toNat :=
      hunused.symm
    rw [Outcome.assert_of hassert, triple_ofOutcome_done]
    refine iff_of_true (Or.inr ⟨rfl, _, rfl, ?_, hheap⟩) hunused
    exact
      { super := rfl
        nbits := rfl
        map := rfl
        unused := hunused
        blocks := hdev
        inodeList := rfl }
  · have hassert : ¬ (freeBlocks (deviceBitmap dev)).card = (terminated (deviceSuper dev)).unusedBlocks.toNat :=
      fun heq => hunused heq.symm
    rw [Outcome.assert_of_not hassert, triple_ofOutcome_panic]
    exact iff_of_false id hunused

/-- The words of a map of whole blocks. -/
theorem bitmapWords_blocks (n : Nat) : bitmapWords (n * sfsBlkbits) = n * blkWords := by
  unfold bitmapWords sfsBlkbits blkWords wordBits
  omega

theorem triple_mountFreemap_iff (hreason : ¬ (Accepted dev s ∧ Loads dev s) → reason) (hacc : Accepted dev s) :
    Triple Never (mountFreemap dev (terminated (deviceSuper dev))) s.accepted (AllOrNothing reason dev s) ↔
      Consistent dev s := by
  by_cases hrange : 0 < (deviceSuper dev).blocks.toNat ∧ (deviceSuper dev).blocks.toNat ≤ 2 ^ 32 - sfsBlkbits
  swap
  · have hzero : sfsFreemapBits (terminated (deviceSuper dev)) = 0 := sfsFreemapBits_eq_zero hrange
    refine iff_of_false ?_ fun hcons => hrange ⟨hcons.1, hcons.2.1⟩
    unfold mountFreemap
    rw [triple_bind, hzero]
    exact not_triple_createFreemap_zero
  have hbits := sfsFreemapBits_eq hrange.2
  have hblocks := sfsFreemapBlocks_pos hrange.1
  have hnblks : sfsBlknFreemap + sfsFreemapBlocks (deviceSuper dev) ≤ 2 ^ 20 := by
    have hlt := (deviceSuper dev).blocks.toNat_lt
    unfold sfsBlknFreemap sfsFreemapBlocks sfsBlkbits
    omega
  have hpos : 0 < sfsFreemapBits (deviceSuper dev) := by
    rw [hbits.1]
    exact Nat.mul_pos hblocks (by decide)
  have hwhole : sfsFreemapBits (deviceSuper dev) = bitmapWords (sfsFreemapBits (deviceSuper dev)) * wordBits := by
    rw [hbits.1, bitmapWords_blocks, Nat.mul_assoc]
    rfl
  have hsame : sfsFreemapBits (terminated (deviceSuper dev)) = sfsFreemapBits (deviceSuper dev) := rfl
  have hsame' : sfsFreemapBlocks (terminated (deviceSuper dev)) = sfsFreemapBlocks (deviceSuper dev) := rfl
  have hcons : Consistent dev s ↔
      (Loads dev s → (deviceSuper dev).unusedBlocks.toNat = (freeBlocks (deviceBitmap dev)).card) :=
    ⟨fun h => h.2.2, fun h => ⟨hrange.1, hrange.2, h⟩⟩
  -- the requests behind the first four
  have hmore : Answered s.requests (sfsFreemapBlocks (deviceSuper dev) + 6) ↔
      s.accepted.requests.headD 0 = 0 ∧ s.accepted.requests.tail.headD 0 = 0 ∧
        Answered s.accepted.requests.tail.tail (sfsFreemapBlocks (deviceSuper dev)) := by
    have hans := hacc.answered
    rw [answered_succ, answered_succ, answered_succ, answered_succ] at hans
    rw [answered_succ, answered_succ, answered_succ, answered_succ, answered_succ, answered_succ]
    exact ⟨fun h => h.2.2.2.2, fun h => ⟨hans.1, hans.2.1, hans.2.2.1, hans.2.2.2.1, h⟩⟩
  have hreason' : ¬ Loads dev s → reason := fun hno => hreason fun h => hno h.2
  rw [hcons]
  unfold mountFreemap
  rw [triple_bind, hsame, triple_createFreemap hpos (hbits.1 ▸ hbits.2) hwhole]
  by_cases h4 : s.accepted.requests.headD 0 = 0
  swap
  · have hno : ¬ Loads dev s := fun hloads => h4 (hmore.1 hloads.1).1
    rw [if_neg h4, triple_cleanupHashList rfl]
    exact iff_of_true (allOrNothing_of_error (hreason' hno) (by decide) rfl rfl) fun hloads => absurd hloads hno
  rw [if_pos h4]
  by_cases h5 : s.accepted.requests.tail.headD 0 = 0
  swap
  · have hno : ¬ Loads dev s := fun hloads => h5 (hmore.1 hloads.1).2.1
    rw [if_neg h5, triple_cleanupHashList rfl]
    exact iff_of_true (allOrNothing_of_error (hreason' hno) (by decide) rfl rfl) fun hloads => absurd hloads hno
  rw [if_pos h5]
  dsimp only
  have hlen : 4 * (fullMap (sfsFreemapBits (deviceSuper dev))).length =
      sfsFreemapBlocks (deviceSuper dev) * sfsBlksize % 2 ^ 32 := by
    have hlt := hbits.2
    unfold fullMap
    rw [List.length_replicate, hbits.1, bitmapWords_blocks]
    unfold sfsBlkbits blkWords sfsBlksize at *
    omega
  rw [triple_bind, hsame', sfsInitFreemap, triple_bind]
  change Triple Never (ofOutcome (Outcome.assert (4 * (fullMap (sfsFreemapBits (deviceSuper dev))).length =
    sfsFreemapBlocks (deviceSuper dev) * sfsBlksize % 2 ^ 32))) _ _ ↔ _
  rw [Outcome.assert_of hlen, triple_ofOutcome_done]
  by_cases hloads : Loads dev s
  · have hrest : Answered ((s.accepted.took Piece.bitmap).took Piece.map).requests
        (sfsFreemapBlocks (deviceSuper dev)) := (hmore.1 hloads.1).2.2
    rw [triple_loadLoop_done hnblks hrest hloads.2, loaded_fullBitmap hrange.2]
    dsimp only
    rw [if_neg (not_not.2 rfl)]
    exact (triple_mountCounted_iff rfl hacc.blocks).trans ⟨fun h _ => h, fun h => h hloads⟩
  · refine iff_of_true ?_ fun h => absurd h hloads
    refine (triple_loadLoop_failed hnblks fun hgood => hloads ⟨hmore.2 ⟨h4, h5, hgood.1⟩, hgood.2 hblocks⟩).mono
      fun x t ht => ?_
    have hne : x.1 ≠ 0 := by
      rw [ht.1]
      decide
    rw [if_pos hne, triple_cleanupFreemap ht.2.1, ht.1]
    exact allOrNothing_of_error (hreason' hloads) (by decide) rfl ht.2.2

/-- A device whose super block passes the checks is mounted, or refused for a `reason`, exactly when it is
consistent. -/
theorem triple_sfsDoMount (hreason : ¬ (Accepted dev s ∧ Loads dev s) → reason) :
    Triple Never (sfsDoMount dev) s (AllOrNothing reason dev s) ↔ (Accepted dev s → Consistent dev s) := by
  rw [triple_sfsDoMount_iff hreason]
  exact forall_congr' fun hacc => triple_mountFreemap_iff hreason hacc

/-- Mounting is all or nothing exactly when a device whose super block passes the checks is consistent. -/
theorem sfsDoMount_all_or_nothing (dev : Device) (s : State) :
    Triple Never (sfsDoMount dev) s (AllOrNothing True dev s) ↔ (Accepted dev s → Consistent dev s) :=
  triple_sfsDoMount fun _ => trivial

end Mounting

/-- A device of eight blocks whose super block has the magic number and no blocks. -/
def emptyDevice : Device where
  dBlocks := 8
  dBlocksize := 4096
  disk := fun _ i => [0x2a, 0xbe, 0x8d, 0x2f].getD i 0

/-- The mount of that device is stopped by the assertion of `bitmap_create`. -/
theorem emptyDevice_panics :
    ¬ Triple Never (sfsDoMount emptyDevice) ⟨[], [], none⟩ (AllOrNothing True emptyDevice ⟨[], [], none⟩) := by
  have hacc : Accepted emptyDevice ⟨[], [], none⟩ :=
    { blocksize := rfl
      answered := fun k _ => rfl
      readable := by decide
      magic := by decide
      blocks := by decide }
  have hempty : ¬ 0 < (deviceSuper emptyDevice).blocks.toNat := by decide
  intro h
  exact hempty ((triple_sfsDoMount fun _ => trivial).1 h hacc).1

end Mount
end TriOS
