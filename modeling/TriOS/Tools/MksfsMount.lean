import TriOS.Fs.Mount
import TriOS.Tools.MksfsCache

/-!
# MksfsMount — the map of free blocks from mksfs to the kernel

The map that `close_sfs` writes has the bits of the numbers that were not given out, the super block counts them, and
the kernel that mounts the image allocates no other block.
-/

namespace TriOS
namespace Mksfs

open Outcome
open Vfs (Block leNat leBytes length_leBytes leNat_leBytes)

variable {s t : Fs} {data words : Words} {i j b n : Nat}

/-! ## The bits that are written -/

/-- The loop sets the bits from `j` on. -/
theorem setBits_bit (rounds : Nat) :
    (setBits data rounds j (i / 32)).toBitVec.getLsbD (i % 32) =
      ((data (i / 32)).toBitVec.getLsbD (i % 32) || decide (j ≤ i ∧ i < j + rounds)) := by
  induction rounds generalizing data j with
  | zero =>
      have hno : ¬ (j ≤ i ∧ i < j + 0) := by omega
      rw [decide_eq_false hno, Bool.or_false]
      rfl
  | succ rounds ih =>
      have hmod : j % 32 < 32 := Nat.mod_lt j (by decide)
      -- the bit of `j` is set in its word
      have hset : (Function.update data (j / 32) (data (j / 32) ||| bitMask (j % 32)) (i / 32)).toBitVec.getLsbD (i % 32) =
          ((data (i / 32)).toBitVec.getLsbD (i % 32) || decide (i = j)) := by
        by_cases hword : i / 32 = j / 32
        · rw [hword, Function.update_self, or_bitMask hmod]
          congr 1
          rw [decide_eq_decide]
          exact ⟨fun hrem => same_bit_iff.1 ⟨hword, hrem⟩, fun heq => (same_bit_iff.2 heq).2⟩
        · have hne : i ≠ j := fun heq => hword (congrArg (· / 32) heq)
          rw [Function.update_of_ne hword, decide_eq_false hne, Bool.or_false]
      unfold setBits
      rw [ih, hset, Bool.or_assoc, ← Bool.decide_or]
      congr 1
      rw [decide_eq_decide]
      omega

/-- A bit of the map of free blocks is that of a number that was not given out. -/
theorem freemapWords_bit (hnext : s.nextIno ≤ s.ninos) (hi : i ≤ s.ninos) (hj : j < sfsBlkbits) :
    (freemapWords s i (j / 32)).toBitVec.getLsbD (j % 32) = decide (s.nextIno ≤ i + j ∧ i + j < s.ninos) := by
  have hzero : ∀ o, (0 : UInt32).toBitVec.getLsbD o = false := fun o => by simp
  unfold freemapWords
  by_cases hsome : s.nextIno < i + sfsBlkbits
  · rw [if_pos hsome, setBits_bit, hzero, Bool.false_or, decide_eq_decide]
    split_ifs <;> omega
  · rw [if_neg hsome, hzero]
    refine (decide_eq_false ?_).symm
    omega

/-! ## Words and bytes -/

/-- A word of a block is read as it was written. -/
theorem blockWord_wordsBlock (words : Words) (i : Nat) : Mount.blockWord (wordsBlock words) i = words i := by
  have hbytes : (wordsBlock words).bytes (4 * i) 4 = leBytes 4 (words i).toNat := by
    have hquot : ∀ j < 4, (4 * i + j) / 4 = i ∧ (4 * i + j) % 4 = j := by omega
    have hbyte : ∀ j < 4, wordsBlock words (4 * i + j) = UInt8.ofNat ((words i).toNat / 256 ^ j) := by
      intro j hj
      unfold wordsBlock
      rw [(hquot j hj).1, (hquot j hj).2]
    change [wordsBlock words (4 * i + 0), wordsBlock words (4 * i + 1), wordsBlock words (4 * i + 2),
      wordsBlock words (4 * i + 3)] = _
    rw [hbyte 0 (by decide), hbyte 1 (by decide), hbyte 2 (by decide), hbyte 3 (by decide)]
    simp only [leBytes, Nat.div_div_eq_div_mul]
    norm_num
  unfold Mount.blockWord
  rw [hbytes, leNat_leBytes 4 _ (words i).toNat_lt, UInt32.ofNat_toNat]

/-- A field of a record is read as it was written. -/
theorem bytes_bytesBlock (before field after : List UInt8) :
    (bytesBlock (before ++ (field ++ after))).bytes before.length field.length = field := by
  refine List.ext_getElem (Vfs.length_bytes _ _ _) fun i _ hi => ?_
  have hat : (before ++ (field ++ after))[before.length + i]? = field[i]? := by
    rw [List.getElem?_append_right (Nat.le_add_right _ _), Nat.add_sub_cancel_left, List.getElem?_append_left hi]
  simp [Vfs.Block.bytes, bytesBlock, hat, hi]

theorem leNat_bytesBlock {before after : List UInt8} (hn : n < 2 ^ 32) (hlen : before.length = i) :
    leNat ((bytesBlock (before ++ (leBytes 4 n ++ after))).bytes i 4) = n := by
  have hfield := bytes_bytesBlock before (leBytes 4 n) after
  rw [length_leBytes, hlen] at hfield
  rw [hfield, leNat_leBytes 4 n hn]

/-- The super block is read as it was written. -/
theorem decodeSuper_encodeSuper (hblocks : s.superBlocks < 2 ^ 32) (hunused : s.unusedBlocks < 2 ^ 32) :
    (Mount.decodeSuper (bytesBlock (encodeSuper s))).magic = Mount.sfsMagic ∧
      (Mount.decodeSuper (bytesBlock (encodeSuper s))).blocks.toNat = s.superBlocks ∧
      (Mount.decodeSuper (bytesBlock (encodeSuper s))).unusedBlocks.toNat = s.unusedBlocks := by
  have hfirst : encodeSuper s = [] ++ (leBytes 4 sfsMagic ++ (leBytes 4 s.superBlocks ++
      (leBytes 4 s.unusedBlocks ++ s.info))) := by
    unfold encodeSuper
    rw [List.append_assoc, List.append_assoc, List.nil_append]
  have hsecond : encodeSuper s = leBytes 4 sfsMagic ++ (leBytes 4 s.superBlocks ++
      (leBytes 4 s.unusedBlocks ++ s.info)) := hfirst.trans (List.nil_append _)
  have hthird : encodeSuper s = (leBytes 4 sfsMagic ++ leBytes 4 s.superBlocks) ++
      (leBytes 4 s.unusedBlocks ++ s.info) := by
    rw [hsecond, List.append_assoc]
  have hmagic : leNat ((bytesBlock (encodeSuper s)).bytes 0 4) = sfsMagic := by
    rw [hfirst]
    exact leNat_bytesBlock (by decide) rfl
  have hblocks' : leNat ((bytesBlock (encodeSuper s)).bytes 4 4) = s.superBlocks := by
    rw [hsecond]
    exact leNat_bytesBlock hblocks (length_leBytes 4 _)
  have hunused' : leNat ((bytesBlock (encodeSuper s)).bytes 8 4) = s.unusedBlocks := by
    rw [hthird]
    refine leNat_bytesBlock hunused ?_
    rw [List.length_append, length_leBytes, length_leBytes]
  unfold Mount.decodeSuper
  dsimp only
  rw [hmagic, hblocks', hunused']
  exact ⟨rfl, UInt32.toNat_ofNat_of_lt' hblocks, UInt32.toNat_ofNat_of_lt' hunused⟩

/-! ## The count of unused blocks -/

/-- The super block counts the numbers that were not given out. -/
structure Counted (s : Fs) : Prop where
  superBlocks : s.superBlocks = s.ninos
  unusedBlocks : s.unusedBlocks = s.ninos - s.nextIno
  ninos : s.ninos ≤ sfsMaxNblks

theorem createSfs_counted {size : Nat} {rest : List UInt8} {img : Nat → Block}
    (hcreate : createSfs size rest img = done s) : Counted s := by
  unfold createSfs at hcreate
  dsimp only at hcreate
  generalize hninos : (if sfsMaxNblks < size / Vfs.sfsBlksize % 2 ^ 32 then sfsMaxNblks
    else size / Vfs.sfsBlksize % 2 ^ 32) = ninos at hcreate
  have hle : ninos ≤ sfsMaxNblks := by
    split at hninos
    · exact hninos.symm.le
    · exact hninos ▸ Nat.not_lt.1 ‹_›
  by_cases hspace : ninos ≤ sfsBlknFreemap + (ninos + sfsBlkbits - 1) / sfsBlkbits
  · rw [if_pos hspace] at hcreate
    cases hcreate
  · rw [if_neg hspace] at hcreate
    cases hcreate
    exact ⟨rfl, rfl, hle⟩

/-- A number that is given out is not counted any more. -/
theorem Counted.give (h : Counted s) (hsuper : t.superBlocks = s.superBlocks) (hninos : t.ninos = s.ninos)
    (hunused : t.unusedBlocks = s.unusedBlocks - 1) (hnext : t.nextIno = s.nextIno + 1) : Counted t := by
  refine ⟨?_, ?_, hninos ▸ h.ninos⟩
  · rw [hsuper, hninos, h.superBlocks]
  · rw [hunused, hninos, hnext, h.unusedBlocks, Nat.sub_sub]

theorem Counted.same (h : Counted s) (hsuper : t.superBlocks = s.superBlocks) (hninos : t.ninos = s.ninos)
    (hunused : t.unusedBlocks = s.unusedBlocks) (hnext : t.nextIno = s.nextIno) : Counted t := by
  refine ⟨?_, ?_, hninos ▸ h.ninos⟩
  · rw [hsuper, hninos, h.superBlocks]
  · rw [hunused, hninos, hnext, h.unusedBlocks]

/-- Every call keeps the count. -/
theorem Counted.step {call : BuildCall} (h : Counted s) (hstep : BuildStep s call t) : Counted t := by
  obtain ⟨hcall, hexec⟩ := hstep
  cases call with
  | takeBlock data =>
      obtain ⟨⟨u, number⟩, hino, hwrite⟩ := bind_eq_done.1 hexec
      obtain ⟨-, rfl, rfl⟩ := sfsAllocIno_done hino
      obtain ⟨-, -, hwrite⟩ := bind_eq_done.1 hwrite
      cases hwrite
      exact h.give rfl rfl rfl rfl
  | allocInode real type =>
      obtain ⟨⟨u, ci⟩, halloc, hpure⟩ := bind_eq_done.1 hexec
      cases hpure
      obtain ⟨-, inode, lists, -, rfl⟩ := allocCacheInode_new halloc
      exact h.give rfl rfl rfl rfl
  | allocBlock ino =>
      obtain ⟨⟨u, cb⟩, halloc, hpure⟩ := bind_eq_done.1 hexec
      cases hpure
      by_cases hino : ino = 0
      · subst hino
        obtain ⟨-, -, rfl⟩ := allocCacheBlock_new halloc
        exact h.give rfl rfl rfl rfl
      · rw [allocCacheBlock_load hino] at halloc
        cases halloc
        exact h.same rfl rfl rfl rfl
  | search ino =>
      cases hexec
      exact h
  | update cbp ino =>
      obtain ⟨⟨u, cb, number⟩, hupdate, hpure⟩ := bind_eq_done.1 hexec
      cases hpure
      rcases updateCache_done hupdate with ⟨-, -, rfl⟩ | ⟨-, rfl⟩
      · exact h.give rfl rfl rfl rfl
      · exact h
  | storeWord cb i value =>
      cases hexec
      exact h.same rfl rfl rfl rfl
  | storeInode ci f =>
      cases hexec
      exact h.same rfl rfl rfl rfl

/-! ## The image -/

/-- The blocks of the map of free blocks. -/
def Fs.freemapBlocks (s : Fs) : Nat := (s.ninos + sfsBlkbits - 1) / sfsBlkbits

/-- What `close_sfs` writes below the first number is the super block, the root inode and the map of free blocks. -/
theorem Built.write_low (h : Built s) {w : Nat × Block} (hw : w ∈ closeWrites s) (hlow : w.1 < s.firstIno) :
    (∃ k < s.freemapBlocks, w = (sfsBlknFreemap + k, wordsBlock (freemapWords s (k * sfsBlkbits)))) ∨
      w = (sfsBlknSuper, bytesBlock (encodeSuper s)) ∨ w.1 = sfsBlknRoot := by
  rcases List.mem_append.1 hw with hw | hw
  · obtain ⟨k, hk, rfl⟩ := List.mem_map.1 hw
    exact Or.inl ⟨k, List.mem_range.1 hk, rfl⟩
  · rcases List.mem_cons.1 hw with rfl | hw
    · exact Or.inr (Or.inl rfl)
    · obtain ⟨head, -, hw⟩ := List.mem_flatMap.1 hw
      rcases List.mem_append.1 hw with hw | hw
      · obtain ⟨cb, -, hcb⟩ := List.mem_filterMap.1 hw
        obtain ⟨block, hblock, rfl⟩ := Option.map_eq_some_iff.1 hcb
        have hnumber := h.blockNumber block (List.mem_of_getElem? hblock)
        exact absurd hnumber.1 (Nat.not_le.2 hlow)
      · obtain ⟨ci, -, hci⟩ := List.mem_filterMap.1 hw
        obtain ⟨inode, hinode, rfl⟩ := Option.map_eq_some_iff.1 hci
        rcases h.inodeNumber inode (List.mem_of_getElem? hinode) with hroot | hnumber
        · exact Or.inr (Or.inr hroot)
        · exact absurd hnumber.1 (Nat.not_le.2 hlow)

/-- The image that was closed holds the super block and the map of free blocks. -/
structure Closed (s t : Fs) : Prop where
  super : t.img sfsBlknSuper = bytesBlock (encodeSuper s)
  freemap : ∀ k < s.freemapBlocks, t.img (sfsBlknFreemap + k) = wordsBlock (freemapWords s (k * sfsBlkbits))

theorem Built.closed (h : Built s) : ∃ t, closeSfs s = done t ∧ Closed s t := by
  have hlt : ∀ w ∈ closeWrites s, w.1 < s.ninos := by
    intro w hw
    rcases mem_closeWrites hw with hlow | ⟨inode, hinode, heq⟩ | ⟨block, hblock, rfl⟩
    · exact hlow.trans h.space
    · rcases h.inodeNumber inode hinode with hroot | ⟨-, hnext⟩
      · have htwo : sfsBlknFreemap ≤ s.ninos := ((Nat.le_add_right _ _).trans h.first).trans h.next
        rw [heq, hroot]
        exact htwo
      · rw [heq]
        exact hnext.trans_le h.next
    · exact (h.blockNumber block hblock).2.trans_le h.next
  obtain ⟨t, hrun, himg⟩ := writeBlocks_spec (closeWrites s) hlt
  have hsuper : (sfsBlknSuper, bytesBlock (encodeSuper s)) ∈ closeWrites s :=
    List.mem_append_right _ List.mem_cons_self
  have hfreemap : ∀ k < s.freemapBlocks,
      (sfsBlknFreemap + k, wordsBlock (freemapWords s (k * sfsBlkbits))) ∈ closeWrites s := fun k hk =>
    List.mem_append_left _ (List.mem_map.2 ⟨k, List.mem_range.2 hk, rfl⟩)
  refine ⟨t, hrun, himg _ _ (fun w hw hn => ?_) (Or.inr ⟨_, hsuper, rfl⟩), fun k hk =>
    himg _ _ (fun w hw hn => ?_) (Or.inr ⟨_, hfreemap k hk, rfl⟩)⟩
  · have hlow : w.1 < s.firstIno := hn ▸ Nat.add_pos_left (by decide) _
    rcases h.write_low hw hlow with ⟨k, -, rfl⟩ | rfl | hroot
    · exact absurd hn (Nat.ne_of_gt (Nat.add_pos_left (by decide) k))
    · rfl
    · exact absurd (hroot.symm.trans hn) (by decide)
  · have hlow : w.1 < s.firstIno := hn ▸ Nat.add_lt_add_left hk sfsBlknFreemap
    rcases h.write_low hw hlow with ⟨k', -, rfl⟩ | rfl | hroot
    · cases Nat.add_left_cancel hn
      rfl
    · exact absurd hn.symm (Nat.ne_of_gt (Nat.add_pos_left (by decide) k))
    · have hone : sfsBlknFreemap + k = sfsBlknRoot := hn.symm.trans hroot
      exact absurd (Nat.le_add_right sfsBlknFreemap k) (hone ▸ by decide)

/-! ## The mounted kernel -/

/-- The device with the image that was closed. -/
structure Holds (dev : Mount.Device) (s t : Fs) : Prop where
  dBlocksize : dev.dBlocksize = Vfs.sfsBlksize
  dBlocks : s.ninos ≤ dev.dBlocks
  disk : ∀ n < s.ninos, dev.disk n = t.img n

/-- The numbers that were not given out. -/
def Fs.unused (s : Fs) : Finset Nat := Finset.Ico s.nextIno s.ninos

section Mounted

variable {dev : Mount.Device} {m : Mount.State}

theorem Closed.deviceSuper (hclosed : Closed s t) (hcount : Counted s) (hbuilt : Built s) (hdev : Holds dev s t) :
    (Mount.deviceSuper dev).magic = Mount.sfsMagic ∧ (Mount.deviceSuper dev).blocks.toNat = s.ninos ∧
      (Mount.deviceSuper dev).unusedBlocks.toNat = s.ninos - s.nextIno := by
  have hninos := hcount.ninos
  have hunused := hcount.unusedBlocks
  unfold sfsMaxNblks at hninos
  have hpos : sfsBlknSuper < s.ninos := (Nat.zero_le _).trans_lt hbuilt.space
  have hsuper : Mount.deviceSuper dev = Mount.decodeSuper (bytesBlock (encodeSuper s)) := by
    rw [← hclosed.super, ← hdev.disk _ hpos]
    rfl
  have hdecode := decodeSuper_encodeSuper (s := s) (by rw [hcount.superBlocks]; omega) (by omega)
  rw [hsuper, ← hunused, ← hcount.superBlocks]
  exact hdecode

/-- The bits of the map on the device are those of the numbers that were not given out. -/
theorem Closed.deviceBitmap_bit (hclosed : Closed s t) (hcount : Counted s) (hbuilt : Built s) (hdev : Holds dev s t)
    (b : Nat) : (Mount.deviceBitmap dev).bit b = decide (b ∈ s.unused) := by
  have hblocks := (hclosed.deviceSuper hcount hbuilt hdev).2.1
  have hninos := hcount.ninos
  have hspace := hbuilt.space
  have hbits : Mount.sfsFreemapBits (Mount.deviceSuper dev) = s.freemapBlocks * sfsBlkbits := by
    unfold Mount.sfsFreemapBits Fs.freemapBlocks
    rw [hblocks]
    unfold Mount.sfsBlkbits sfsBlkbits sfsMaxNblks at *
    omega
  have hwords : bitmapWords (Mount.sfsFreemapBits (Mount.deviceSuper dev)) = s.freemapBlocks * Mount.blkWords := by
    rw [hbits]
    exact Mount.bitmapWords_blocks _
  have hcover : s.ninos ≤ s.freemapBlocks * sfsBlkbits := by
    unfold Fs.freemapBlocks sfsBlkbits
    omega
  by_cases hb : b < s.freemapBlocks * sfsBlkbits
  · have hk : b / sfsBlkbits < s.freemapBlocks := by
      unfold sfsBlkbits at *
      omega
    have hnumber : sfsBlknFreemap + b / sfsBlkbits < s.ninos := (Nat.add_lt_add_left hk sfsBlknFreemap).trans hspace
    have hstart : b / sfsBlkbits * sfsBlkbits ≤ s.ninos := by
      unfold Fs.freemapBlocks sfsBlkbits at *
      omega
    have hword : (Mount.deviceBitmap dev).word b =
        freemapWords s (b / sfsBlkbits * sfsBlkbits) (b % sfsBlkbits / 32) := by
      have hin : b / wordBits < bitmapWords (Mount.sfsFreemapBits (Mount.deviceSuper dev)) := by
        rw [hwords]
        unfold wordBits Mount.blkWords sfsBlkbits at *
        omega
      have hquot : b / wordBits / Mount.blkWords = b / sfsBlkbits := Nat.div_div_eq_div_mul b wordBits Mount.blkWords
      have hrem : b / wordBits % Mount.blkWords = b % sfsBlkbits / 32 := by
        unfold wordBits Mount.blkWords sfsBlkbits
        omega
      have hin' : b / wordBits < (List.range (bitmapWords (Mount.sfsFreemapBits (Mount.deviceSuper dev)))).length := by
        rw [List.length_range]
        exact hin
      unfold Bitmap.word Mount.deviceBitmap Mount.deviceFreemap
      dsimp only
      rw [List.getD_eq_getElem?_getD, List.getElem?_map, List.getElem?_eq_getElem hin', List.getElem_range,
        Option.map_some, Option.getD_some]
      unfold Mount.diskWord
      rw [hquot, hrem]
      change Mount.blockWord (dev.disk (sfsBlknFreemap + b / sfsBlkbits)) _ = _
      rw [hdev.disk _ hnumber, hclosed.freemap _ hk, blockWord_wordsBlock]
    have hbit : b % 32 = b % sfsBlkbits % 32 := by
      unfold sfsBlkbits
      omega
    rw [Bitmap.bit_eq, hword, hbit, freemapWords_bit hbuilt.next hstart (Nat.mod_lt b (by decide)), Nat.div_add_mod']
    exact decide_eq_decide.2 Finset.mem_Ico.symm
  · have hout : (Mount.deviceBitmap dev).map.length ≤ b / wordBits := by
      unfold Mount.deviceBitmap Mount.deviceFreemap
      dsimp only
      rw [List.length_map, List.length_range, hwords]
      unfold wordBits Mount.blkWords sfsBlkbits at *
      omega
    rw [Bitmap.bit_of_length_le hout]
    refine (decide_eq_false fun hmem => hb ?_).symm
    exact (Finset.mem_Ico.1 hmem).2.trans_le hcover

/-- The free blocks of the map on the device. -/
theorem Closed.freeBlocks (hclosed : Closed s t) (hcount : Counted s) (hbuilt : Built s) (hdev : Holds dev s t) :
    Mount.freeBlocks (Mount.deviceBitmap dev) = s.unused := by
  have hblocks := (hclosed.deviceSuper hcount hbuilt hdev).2.1
  have hninos := hcount.ninos
  ext b
  unfold Mount.freeBlocks
  rw [Finset.mem_filter, Finset.mem_range, hclosed.deviceBitmap_bit hcount hbuilt hdev, decide_eq_true_iff]
  refine ⟨And.right, fun hmem => ⟨?_, hmem⟩⟩
  have hlt := (Finset.mem_Ico.1 hmem).2
  change b < Mount.sfsFreemapBits (Mount.deviceSuper dev)
  unfold Mount.sfsFreemapBits
  rw [hblocks]
  unfold Mount.sfsBlkbits sfsMaxNblks at *
  omega

/-- The image passes the check of the count. -/
theorem Closed.consistent (hclosed : Closed s t) (hcount : Counted s) (hbuilt : Built s) (hdev : Holds dev s t) :
    Mount.Consistent dev m := by
  obtain ⟨-, hblocks, hunused⟩ := hclosed.deviceSuper hcount hbuilt hdev
  have hninos := hcount.ninos
  refine ⟨?_, ?_, fun _ => ?_⟩
  · rw [hblocks]
    exact (Nat.zero_le _).trans_lt hbuilt.space
  · rw [hblocks]
    unfold Mount.sfsBlkbits sfsMaxNblks at *
    omega
  · rw [hunused, hclosed.freeBlocks hcount hbuilt hdev, Fs.unused, Nat.card_Ico]

end Mounted

/-- One call on the map of the mounted kernel. -/
def MapStep (x : Bitmap) (call : BitmapCall) (y : Bitmap) : Prop :=
  match call with
  | .alloc none => bitmapAlloc x = done none ∧ y = x
  | .alloc (some i) => bitmapAlloc x = done (some (i, y))
  | .free i => bitmapFree x i = done y

/-- A bit that is set after a run was set before it, or was freed in it. -/
theorem bit_of_run {x y : Bitmap} {calls : List BitmapCall} (hrun : Transition.Run MapStep x calls y)
    (hbit : y.bit i = true) : x.bit i = true ∨ BitmapCall.free i ∈ calls := by
  induction hrun with
  | nil => exact Or.inl hbit
  | @snoc calls call y z hrun hstep ih =>
      have hkeep : y.bit i = true → x.bit i = true ∨ BitmapCall.free i ∈ calls ++ [call] := fun hy =>
        (ih hy).imp id fun hmem => List.mem_append_left _ hmem
      cases call with
      | alloc index =>
          cases index with
          | none =>
              obtain ⟨-, rfl⟩ := hstep
              exact hkeep hbit
          | some j =>
              have halloc : bitmapAlloc y = done (some (j, z)) := hstep
              rcases bitmapAlloc_spec y with ⟨hnone, -⟩ | ⟨j', z', hsome, -, -, hbits⟩
              · cases hnone.symm.trans halloc
              · cases hsome.symm.trans halloc
                rw [hbits, Bool.and_eq_true] at hbit
                exact hkeep hbit.1
      | free j =>
          have hfree : bitmapFree y j = done z := hstep
          by_cases hij : i = j
          · subst hij
            exact Or.inr (List.mem_append_right _ List.mem_cons_self)
          · obtain ⟨free, htest, hrest⟩ := bind_eq_done.1 hfree
            obtain ⟨_, hassert, hput⟩ := bind_eq_done.1 hrest
            obtain ⟨_, hlt, hvalue⟩ := bind_eq_done.1 htest
            cases hvalue
            have hclear : y.bit j = false := assert_eq_done.1 hassert
            obtain ⟨z', hfree', -, hbits⟩ := bitmapFree_spec (assert_eq_done.1 hlt) hclear
            cases hfree'.symm.trans hfree
            rw [hbits, decide_eq_false hij, Bool.or_false] at hbit
            exact hkeep hbit

/-- What the mounted kernel does with its map: a block that is allocated after a run of allocations and frees was not
given out by mksfs, or was freed in the run. -/
def AllocatesUnused (s : Fs) (freemap : Bitmap) : Prop :=
  ∀ calls b, Transition.Run MapStep freemap calls b → ∀ i b', bitmapAlloc b = done (some (i, b')) →
    i ∈ s.unused ∨ BitmapCall.free i ∈ calls

/-- What an image agrees on with the kernel. The map of free blocks has the bits of the numbers that were not given out,
the super block has their number, the mount does not stop at its check and succeeds unless one of its requests
fails, and the kernel allocates no other block. -/
structure Agrees (s : Fs) (dev : Mount.Device) : Prop where
  bit : ∀ b, (Mount.deviceBitmap dev).bit b = decide (s.nextIno ≤ b ∧ b < s.ninos)
  unusedBlocks : (Mount.deviceSuper dev).unusedBlocks.toNat = s.ninos - s.nextIno
  mount : ∀ m, Hoare.Triple Vfs.Never (Mount.sfsDoMount dev) m fun ret u =>
    (¬ Mount.Answered m.requests (s.freemapBlocks + 6) ∧ ret < 0 ∧ u.heap = m.heap ∧ u.fsStore = m.fsStore) ∨
      (ret = 0 ∧ ∃ fs, u.fsStore = some fs ∧ Mount.Mounted dev fs ∧ AllocatesUnused s fs.freemap)

theorem Closed.agrees {dev : Mount.Device} (hclosed : Closed s t) (hcount : Counted s) (hbuilt : Built s)
    (hdev : Holds dev s t) : Agrees s dev := by
  obtain ⟨hmagic, hblocks, hunused⟩ := hclosed.deviceSuper hcount hbuilt hdev
  refine ⟨fun b => ?_, hunused, fun m => ?_⟩
  · rw [hclosed.deviceBitmap_bit hcount hbuilt hdev]
    exact decide_eq_decide.2 Finset.mem_Ico
  · have hpos : 0 < s.ninos := (Nat.zero_le _).trans_lt hbuilt.space
    have hfreemap : Mount.sfsFreemapBlocks (Mount.deviceSuper dev) = s.freemapBlocks := by
      unfold Mount.sfsFreemapBlocks
      rw [hblocks]
      rfl
    have hall : Mount.Answered m.requests (s.freemapBlocks + 6) → Mount.Accepted dev m ∧ Mount.Loads dev m := by
      intro hans
      constructor
      · exact
          { blocksize := hdev.dBlocksize
            answered := fun k hk => hans k (hk.trans (by omega))
            readable := hpos.trans_le hdev.dBlocks
            magic := hmagic
            blocks := hblocks.trans_le hdev.dBlocks }
      · unfold Mount.Loads
        rw [hfreemap]
        exact ⟨hans, hbuilt.space.le.trans hdev.dBlocks⟩
    have hmount : Hoare.Triple Vfs.Never (Mount.sfsDoMount dev) m
        (Mount.AllOrNothing (¬ (Mount.Accepted dev m ∧ Mount.Loads dev m)) dev m) :=
      (Mount.triple_sfsDoMount id).2 fun _ => hclosed.consistent hcount hbuilt hdev
    refine hmount.mono fun ret u hu => hu.imp (fun herror => ⟨fun hans => herror.1 (hall hans), herror.2⟩) fun hdone =>
      ⟨hdone.1, ?_⟩
    obtain ⟨fs, hstore, hfs, -⟩ := hdone.2
    refine ⟨fs, hstore, hfs, fun calls b hcalls i b' halloc => ?_⟩
    have hsame : fs.freemap = Mount.deviceBitmap dev := Bitmap.ext_of hfs.nbits hfs.map
    rcases bitmapAlloc_spec b with ⟨hnone, -⟩ | ⟨i', b'', hsome, hbit, -, -⟩
    · cases hnone.symm.trans halloc
    · cases hsome.symm.trans halloc
      refine (bit_of_run hcalls hbit).imp (fun hstart => ?_) id
      rw [hsame, hclosed.deviceBitmap_bit hcount hbuilt hdev] at hstart
      exact of_decide_eq_true hstart

/-- An image that was created, filled by any calls and closed agrees with the kernel on every device that holds it. -/
theorem freemap_agreement {size : Nat} {rest : List UInt8} {img : Nat → Block} {s₀ s : Fs} {calls : List BuildCall}
    (hcreate : createSfs size rest img = done s₀) (hrun : Transition.Run BuildStep s₀ calls s) :
    ∃ t, closeSfs s = done t ∧ ∀ dev, Holds dev s t → Agrees s dev := by
  have hbuilt : Built s := (createSfs_built hcreate).1.run hrun
  have hcount : Counted s :=
    hrun.invariant Counted (fun _ _ _ hu hstep => hu.step hstep) (createSfs_counted hcreate)
  obtain ⟨t, hclose, hclosed⟩ := hbuilt.closed
  exact ⟨t, hclose, fun dev hdev => hclosed.agrees hcount hbuilt hdev⟩

theorem eightBlocksTaken_run :
    Transition.Run BuildStep eightBlocksImg [BuildCall.takeBlock fun _ => 7] eightBlocksTaken :=
  Transition.Run.snoc Transition.Run.nil ⟨trivial, rfl⟩

theorem freemap_agreement_taken :
    ∃ t, closeSfs eightBlocksTaken = done t ∧ ∀ dev, Holds dev eightBlocksTaken t → Agrees eightBlocksTaken dev :=
  freemap_agreement createSfs_eightBlocks eightBlocksTaken_run

end Mksfs
end TriOS
