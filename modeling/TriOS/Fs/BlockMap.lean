import TriOS.Fs.BitmapBits
import TriOS.Fs.SfsRead
import TriOS.Library.Transition

/-!
# BlockMap — the blocks of an inode are a list

The numbers of the blocks of an inode are partly in the inode and partly in a block of entries on the disk. Seen
from outside they are a list, to which a block is appended, and from which the last one is taken. A device that
fails, or a disk without free blocks, leaves the list as it is.
-/

namespace TriOS
namespace Vfs

open Hoare

variable {s t u : Sfs} {n ino ent index b k off len : Nat} {sin : Sin} {din : Din} {L : List Nat} {block buf : Block}
  {data : List UInt8}

/-- The code does not stop. -/
def Never (_ : Halt) : Prop := False

/-! ## Bytes -/

theorem length_leBytes (len n : Nat) : (leBytes len n).length = len := by
  induction len generalizing n with
  | zero => rfl
  | succ len ih => exact congrArg Nat.succ (ih (n / 256))

theorem leNat_leBytes (len n : Nat) (h : n < 256 ^ len) : leNat (leBytes len n) = n := by
  induction len generalizing n with
  | zero =>
      rw [pow_zero] at h
      exact (Nat.lt_one_iff.1 h).symm
  | succ len ih =>
      have hdiv : n / 256 < 256 ^ len := by
        rw [pow_succ, Nat.mul_comm] at h
        exact Nat.div_lt_of_lt_mul h
      unfold leBytes leNat
      rw [ih (n / 256) hdiv, UInt8.toNat_ofNat']
      omega

theorem length_bytes (block : Block) (off len : Nat) : (block.bytes off len).length = len := by
  simp [Block.bytes]

theorem bytes_put_self : (block.put off data).bytes off data.length = data := by
  apply List.ext_getElem
  · exact length_bytes _ _ _
  · intro i _ hi
    simp [Block.bytes, Block.put, hi]

/-- Bytes beside those that are written are kept. -/
theorem bytes_put_of_disjoint (h : off + len ≤ k ∨ k + data.length ≤ off) :
    (block.put k data).bytes off len = block.bytes off len := by
  unfold Block.bytes
  apply List.map_congr_left
  intro i hi
  have hlt := List.mem_range.1 hi
  unfold Block.put
  rw [if_neg]
  omega

theorem leNat_zero_bytes (off len : Nat) : leNat (Block.bytes (fun _ => 0) off len) = 0 := by
  have hzero : ∀ l : List Nat, leNat (l.map fun _ => (0 : UInt8)) = 0 := by
    intro l
    induction l with
    | nil => rfl
    | cons a l ih =>
        rw [List.map_cons, leNat, ih]
        rfl
  exact hzero (List.range len)

/-! ## The use of the blocks -/

/-- The map of free blocks is right: it has the blocks of the disk but the first, and it is counted. The size of
the disk in bytes is a 32-bit number. -/
structure FreeOk (s : Sfs) : Prop where
  small : s.blocks ≤ 2 ^ 20
  nbits : s.blocks ≤ s.freemap.nbits
  range : ∀ b, s.freemap.bit b = true → 0 < b ∧ b < s.blocks
  unused : ((Finset.range s.blocks).filter fun b => s.freemap.bit b = true).card = s.unusedBlocks

/-- The block is in use. -/
def Used (s : Sfs) (b : Nat) : Prop := 0 < b ∧ b < s.blocks ∧ s.freemap.bit b = false

/-- Blocks in use stay in use, with what is in them, and no inode in memory has changed. -/
structure Grows (s t : Sfs) : Prop where
  blocks : t.blocks = s.blocks
  sin : t.sin = s.sin
  free : FreeOk t
  used : ∀ b, Used s b → Used t b ∧ t.disk b = s.disk b

theorem FreeOk.block_eq (h : FreeOk s) (hb : b < s.blocks) : s.block b = s.disk b := by
  have hsmall := h.small
  have hmod : b * sfsBlksize % 2 ^ 32 / sfsBlksize = b := by
    unfold sfsBlksize
    omega
  unfold Sfs.block
  rw [hmod]

theorem FreeOk.requests (h : FreeOk s) (requests : List Nat) : FreeOk { s with requests := requests } :=
  ⟨h.small, h.nbits, h.range, h.unused⟩

theorem FreeOk.grows (h : FreeOk s) (requests : List Nat) : Grows s { s with requests := requests } :=
  ⟨rfl, rfl, h.requests requests, fun _ hb => ⟨hb, rfl⟩⟩

theorem Quiet.grows (h : Quiet s t) (hs : FreeOk s) : Grows s t := by
  obtain ⟨requests, rfl⟩ := h
  exact hs.grows requests

theorem Grows.trans (h : Grows s t) (h' : Grows t u) : Grows s u := by
  refine ⟨h'.blocks.trans h.blocks, h'.sin.trans h.sin, h'.free, fun b hb => ?_⟩
  obtain ⟨hused, hdisk⟩ := h.used b hb
  obtain ⟨hused', hdisk'⟩ := h'.used b hused
  exact ⟨hused', hdisk'.trans hdisk⟩

/-! ## Requests to the device -/

/-- No request that is still to come fails. -/
def Served (s : Sfs) : Prop := ∀ q ∈ s.requests, q = 0

theorem Served.tail (h : Served s) : Served { s with requests := s.requests.tail } :=
  fun q hq => h q (List.mem_of_mem_tail hq)

theorem Served.headD (h : Served s) : s.requests.headD 0 = 0 := by
  cases hr : s.requests with
  | nil => rfl
  | cons q rest => exact h q (hr ▸ List.mem_cons_self)

/-- A request that fails was not to be served. -/
theorem not_served_of_fails (h : (s.requests.headD 0 != 0) = true) : ¬ Served s := by
  intro hserved
  rw [hserved.headD] at h
  exact Bool.false_ne_true h

theorem triple_assert_of {E : Halt → Prop} {p : Prop} [Decidable p] {Q : Unit → Sfs → Prop} (hp : p) :
    Triple E (SfsM.assert p) s Q ↔ Q () s := by
  unfold SfsM.assert
  rw [if_pos hp]
  exact triple_pure

theorem triple_ofOutcome_done {E : Halt → Prop} {α : Type} {x : Outcome α} {a : α} {Q : α → Sfs → Prop}
    (hx : x = Outcome.done a) : Triple E (SfsM.ofOutcome x) s Q ↔ Q a s := by
  rw [hx]
  exact Iff.rfl

/-- A request to read a block. -/
theorem readBlock_spec (hs : FreeOk s) (hpos : 0 < b) (hb : b < s.blocks) :
    Triple Never (sfsRwblockNolock buf b false true) s fun r t => Quiet s t ∧
      (r = (0, s.disk b) ∧ (Served s → Served t) ∨ r.1 = -eInval ∧ ¬ Served s) := by
  unfold sfsRwblockNolock dopIo fails ask
  rw [triple_bind, triple_get, triple_bind, triple_assert_of ⟨Or.inl hpos.ne', hb⟩]
  simp only [triple_bind, triple_get, triple_set, triple_pure]
  by_cases hfail : (s.requests.headD 0 != 0) = true
  · rw [if_pos hfail]
    exact ⟨⟨_, rfl⟩, Or.inr ⟨rfl, not_served_of_fails hfail⟩⟩
  · rw [if_neg hfail]
    refine ⟨⟨_, rfl⟩, Or.inl ⟨?_, Served.tail⟩⟩
    have hblock := hs.block_eq hb
    unfold Sfs.block at hblock
    exact congrArg (fun x => ((0 : Int), x)) hblock

/-- A state with another block on the disk. -/
def Sfs.write (s : Sfs) (b : Nat) (block : Block) : Sfs := { s with disk := Function.update s.disk b block }

/-- A request to write a block. -/
theorem writeBlock_spec (hs : FreeOk s) (hpos : 0 < b) (hb : b < s.blocks) :
    Triple Never (sfsRwblockNolock buf b true true) s fun r t =>
      (r.1 = 0 ∧ Quiet (s.write b buf) t) ∨ r.1 = -eInval ∧ Quiet s t := by
  unfold sfsRwblockNolock dopIo fails ask
  rw [triple_bind, triple_get, triple_bind, triple_assert_of ⟨Or.inl hpos.ne', hb⟩]
  simp only [triple_bind, triple_get, triple_set, triple_pure]
  by_cases hfail : (s.requests.headD 0 != 0) = true
  · rw [if_pos hfail]
    exact Or.inr ⟨rfl, ⟨_, rfl⟩⟩
  · rw [if_neg hfail]
    have hsmall := hs.small
    have hmod : b * sfsBlksize % 2 ^ 32 / sfsBlksize = b := by
      unfold sfsBlksize
      omega
    simp only [triple_bind, triple_get, if_true, triple_set, triple_pure, hmod]
    exact Or.inl ⟨trivial, ⟨_, rfl⟩⟩

theorem sfsRbuf_spec (hs : FreeOk s) (hpos : 0 < b) (hb : b < s.blocks) (hoff : off < sfsBlksize)
    (hlen : off + len ≤ sfsBlksize) :
    Triple Never (sfsRbuf len b off) s fun r t => Quiet s t ∧
      (r = (0, (s.disk b).bytes off len) ∧ (Served s → Served t) ∨ r.1 = -eInval ∧ ¬ Served s) := by
  unfold sfsRbuf
  rw [triple_bind, triple_assert_of ⟨hoff, hlen⟩]
  refine (readBlock_spec hs hpos hb).bind fun r t hr => ?_
  obtain ⟨hquiet, ⟨rfl, hserved⟩ | hfail⟩ := hr
  · exact ⟨hquiet, Or.inl ⟨rfl, hserved⟩⟩
  · exact ⟨hquiet, Or.inr hfail⟩

theorem eInval_ne_zero : -eInval ≠ 0 := by decide

theorem sfsWbuf_spec (hs : FreeOk s) (hpos : 0 < b) (hb : b < s.blocks) (hoff : off < sfsBlksize)
    (hlen : off + data.length ≤ sfsBlksize) :
    Triple Never (sfsWbuf data b off) s fun r t =>
      (r = 0 ∧ Quiet (s.write b ((s.disk b).put off data)) t) ∨ r = -eInval ∧ Quiet s t := by
  unfold sfsWbuf
  rw [triple_bind, triple_assert_of ⟨hoff, hlen⟩]
  refine (readBlock_spec hs hpos hb).bind fun r t hr => ?_
  obtain ⟨ret, block⟩ := r
  obtain ⟨⟨requests, rfl⟩, ⟨hread, -⟩ | ⟨hfail, -⟩⟩ := hr
  · obtain ⟨rfl, rfl⟩ := Prod.mk.inj hread
    dsimp only
    rw [if_neg (not_not.2 rfl)]
    refine (writeBlock_spec (hs.requests requests) hpos hb).bind fun r u hr => ?_
    rcases hr with ⟨hzero, requests', rfl⟩ | ⟨hfail, requests', rfl⟩
    · exact Or.inl ⟨hzero, requests', rfl⟩
    · exact Or.inr ⟨hfail, requests', rfl⟩
  · dsimp only
    rw [if_pos (hfail.trans_ne eInval_ne_zero)]
    exact Or.inr ⟨hfail, requests, rfl⟩

/-! ## Taking and giving back blocks -/

theorem blockInuse_spec (hs : FreeOk s) (hpos : 0 < b) (hb : b < s.blocks) :
    Triple Never (blockInuse b) s fun r t => r = (!s.freemap.bit b) ∧ t = s := by
  unfold blockInuse
  rw [triple_bind, triple_get, if_pos ⟨hpos.ne', hb⟩, triple_bind,
    triple_ofOutcome_done (bitmapTest_spec (hb.trans_le hs.nbits))]
  exact ⟨rfl, rfl⟩

theorem Used.inuse (hs : FreeOk s) (h : Used s b) : Triple Never (blockInuse b) s fun r t => r = true ∧ t = s := by
  refine (blockInuse_spec hs h.1 h.2.1).mono fun r t hr => ⟨?_, hr.2⟩
  rw [hr.1, h.2.2]
  rfl

/-- A state in which another map of free blocks has been stored. -/
def Sfs.setFree (s : Sfs) (freemap : Bitmap) (unusedBlocks : Nat) : Sfs :=
  { s with freemap := freemap, unusedBlocks := unusedBlocks, superDirty := true }

/-- One block has been taken. -/
theorem FreeOk.take (hs : FreeOk s) {freemap : Bitmap} (hbit : s.freemap.bit b = true)
    (hnbits : freemap.nbits = s.freemap.nbits)
    (hbits : ∀ j, freemap.bit j = (s.freemap.bit j && decide (j ≠ b))) :
    0 < s.unusedBlocks ∧ Grows s (s.setFree freemap (s.unusedBlocks - 1)) ∧
      Used (s.setFree freemap (s.unusedBlocks - 1)) b := by
  obtain ⟨hpos, hlt⟩ := hs.range b hbit
  have hmem : b ∈ (Finset.range s.blocks).filter fun b => s.freemap.bit b = true :=
    Finset.mem_filter.2 ⟨Finset.mem_range.2 hlt, hbit⟩
  have herase : ((Finset.range s.blocks).filter fun b => freemap.bit b = true) =
      ((Finset.range s.blocks).filter fun b => s.freemap.bit b = true).erase b := by
    ext j
    simp only [Finset.mem_filter, Finset.mem_range, Finset.mem_erase, hbits, Bool.and_eq_true, decide_eq_true_eq]
    tauto
  have hcard := Finset.card_erase_of_mem hmem
  have hunused : 0 < s.unusedBlocks := hs.unused ▸ Finset.card_pos.2 ⟨b, hmem⟩
  refine ⟨hunused, ⟨rfl, rfl, ⟨hs.small, hnbits.symm ▸ hs.nbits, fun j hj => ?_, ?_⟩, fun j hj => ⟨?_, rfl⟩⟩, hpos, hlt, ?_⟩
  · have hold : freemap.bit j = true := hj
    rw [hbits j, Bool.and_eq_true] at hold
    exact hs.range j hold.1
  · have hcount : ((Finset.range s.blocks).filter fun b => freemap.bit b = true).card = s.unusedBlocks - 1 := by
      rw [herase, hcard, hs.unused]
    exact hcount
  · refine ⟨hj.1, hj.2.1, ?_⟩
    have hbit' : freemap.bit j = false := by
      rw [hbits j, hj.2.2]
      rfl
    exact hbit'
  · have hbit' : freemap.bit b = false := by
      rw [hbits b]
      simp
    exact hbit'

theorem FreeOk.write (hs : FreeOk s) (b : Nat) (block : Block) : FreeOk (s.write b block) :=
  ⟨hs.small, hs.nbits, hs.range, hs.unused⟩

/-- A block is written that was not in use. -/
theorem Grows.write (h : Grows s t) (hb : ¬ Used s b) (block : Block) : Grows s (t.write b block) := by
  refine ⟨h.blocks, h.sin, h.free.write b block, fun j hj => ⟨(h.used j hj).1, ?_⟩⟩
  have hne : j ≠ b := fun heq => hb (heq ▸ hj)
  exact (Function.update_of_ne hne _ _).trans (h.used j hj).2

/-- `sfs_block_alloc` takes a block that was not in use, and clears it. -/
theorem sfsBlockAlloc_spec (hs : FreeOk s) :
    Triple Never sfsBlockAlloc s fun r t => Grows s t ∧
      (r.1 ≠ 0 ∨ r.1 = 0 ∧ ¬ Used s r.2 ∧ Used t r.2 ∧ t.disk r.2 = fun _ => 0) := by
  unfold sfsBlockAlloc
  rw [triple_bind, triple_get, triple_bind]
  rcases bitmapAlloc_spec s.freemap with ⟨hnone, -⟩ | ⟨b, freemap, hsome, hbit, hnbits, hbits⟩
  · rw [triple_ofOutcome_done hnone]
    exact ⟨Quiet.refl.grows hs, Or.inl (by decide)⟩
  · rw [triple_ofOutcome_done hsome]
    obtain ⟨hunused, hgrows, hused⟩ := hs.take hbit hnbits hbits
    have hnot : ¬ Used s b := fun h => by
      rw [h.2.2] at hbit
      cases hbit
    dsimp only
    rw [triple_bind, triple_assert_of hunused, triple_bind, triple_set]
    refine (hused.inuse hgrows.free).bind fun inuse t ht => ?_
    obtain ⟨rfl, rfl⟩ := ht
    rw [triple_bind, triple_assert_of rfl]
    unfold sfsClearBlock
    rw [triple_bind, triple_bind]
    refine (writeBlock_spec hgrows.free hused.1 hused.2.1).mono fun r u hr => ?_
    simp only [triple_pure]
    rcases hr with ⟨hzero, requests, rfl⟩ | ⟨hfail, requests, rfl⟩
    · have hwrite := hgrows.write hnot fun _ => 0
      refine ⟨hwrite.trans (hwrite.free.grows requests), Or.inr ⟨hzero, hnot, hused, ?_⟩⟩
      exact Function.update_self _ _ _
    · exact ⟨hgrows.trans (hgrows.free.grows requests), Or.inl (hfail.trans_ne eInval_ne_zero)⟩

/-- `sfs_block_free` of a block in use. -/
theorem blockFree_spec (hs : FreeOk s) (hb : Used s b) :
    Triple Never (blockFree b) s fun _ t => t.blocks = s.blocks ∧ t.sin = s.sin ∧ t.disk = s.disk ∧ FreeOk t ∧
      ∀ j, t.freemap.bit j = (s.freemap.bit j || decide (j = b)) := by
  unfold blockFree
  refine (hb.inuse hs).bind fun inuse t ht => ?_
  obtain ⟨rfl, rfl⟩ := ht
  obtain ⟨freemap, hfree, hnbits, hbits⟩ := bitmapFree_spec (hb.2.1.trans_le hs.nbits) hb.2.2
  rw [triple_bind, triple_assert_of rfl, triple_bind, triple_get, triple_bind, triple_ofOutcome_done hfree, triple_set]
  have hcount : ((Finset.range t.blocks).filter fun b => freemap.bit b = true).card = t.unusedBlocks + 1 := by
    have hnot : b ∉ (Finset.range t.blocks).filter fun b => t.freemap.bit b = true := by
      intro hmem
      have hbit := (Finset.mem_filter.1 hmem).2
      rw [hb.2.2] at hbit
      cases hbit
    have hinsert : ((Finset.range t.blocks).filter fun b => freemap.bit b = true) =
        insert b ((Finset.range t.blocks).filter fun b => t.freemap.bit b = true) := by
      ext j
      simp only [Finset.mem_filter, Finset.mem_range, Finset.mem_insert, hbits, Bool.or_eq_true, decide_eq_true_eq]
      constructor
      · rintro ⟨hlt, hbit | rfl⟩
        · exact Or.inr ⟨hlt, hbit⟩
        · exact Or.inl rfl
      · rintro (rfl | ⟨hlt, hbit⟩)
        · exact ⟨hb.2.1, Or.inr rfl⟩
        · exact ⟨hlt, Or.inl hbit⟩
    rw [hinsert, Finset.card_insert_of_notMem hnot, hs.unused]
  refine ⟨rfl, rfl, rfl, ⟨hs.small, hnbits.symm ▸ hs.nbits, fun j hj => ?_, hcount⟩, hbits⟩
  have hold : freemap.bit j = true := hj
  rw [hbits j, Bool.or_eq_true, decide_eq_true_eq] at hold
  rcases hold with hbit | rfl
  · exact hs.range j hbit
  · exact ⟨hb.1, hb.2.1⟩

/-- A block is given back that has been taken meanwhile. -/
theorem Grows.blockFree (h : Grows s t) (hb : Used t b) (hnot : ¬ Used s b) :
    Triple Never (blockFree b) t fun _ u => Grows s u ∧ ∀ j, j ≠ b → Used t j → Used u j := by
  refine (blockFree_spec h.free hb).mono fun _ u hu => ?_
  obtain ⟨hblocks, hsin, hdisk, hfree, hbits⟩ := hu
  have hkeep : ∀ j, j ≠ b → Used t j → Used u j := by
    intro j hne hj
    refine ⟨hj.1, hblocks.symm ▸ hj.2.1, ?_⟩
    rw [hbits j, hj.2.2]
    simp [hne]
  refine ⟨⟨hblocks.trans h.blocks, hsin.trans h.sin, hfree, fun j hj => ?_⟩, hkeep⟩
  have hne : j ≠ b := fun heq => hnot (heq ▸ hj)
  refine ⟨hkeep j hne (h.used j hj).1, ?_⟩
  rw [hdisk]
  exact (h.used j hj).2

/-! ## Entries -/

/-- A number has been stored in an entry of the block `ent`; the blocks in use are those before, and `ino`. -/
structure Linked (s t : Sfs) (ent index ino : Nat) : Prop where
  blocks : t.blocks = s.blocks
  sin : t.sin = s.sin
  free : FreeOk t
  fresh : ¬ Used s ino
  new : Used t ino
  used : ∀ j, Used s j → Used t j ∧ (j ≠ ent → t.disk j = s.disk j)
  entries : t.disk ent = (s.disk ent).put (index * 4) (leBytes 4 ino)

/-- The exit for a failure gives a new entry block back. -/
theorem bmapCleanup_spec (h : Grows s t) (hent : Used t ent) (hnew : ent ≠ k → ¬ Used s ent) (ret : Int) (hret : ret ≠ 0) :
    Triple Never (bmapCleanup k ent ret) t fun r u => r.1 ≠ 0 ∧ Grows s u := by
  unfold bmapCleanup
  rw [triple_bind]
  refine triple_ite (fun hne => ?_) fun _ => ?_
  · refine (h.blockFree hent (hnew hne)).mono fun _ u hu => ?_
    exact ⟨hret, hu.1⟩
  · exact ⟨hret, h⟩

theorem bmapNewBlock_spec (h : Grows s t) (hent : Used t ent) (hnew : ent ≠ k → ¬ Used s ent) (hindex : index < sfsBlkNentry) :
    Triple Never (bmapNewBlock k ent index) t fun r u =>
      (r.1 ≠ 0 ∧ Grows s u) ∨ ∃ ino, r = (0, ent, ino) ∧ Linked t u ent index ino := by
  unfold bmapNewBlock
  refine (sfsBlockAlloc_spec h.free).bind fun r u hu => ?_
  obtain ⟨ret, ino⟩ := r
  obtain ⟨hgrows, hr⟩ := hu
  have hent' := hgrows.used ent hent
  dsimp only at hr ⊢
  rcases hr with hfail | ⟨rfl, hfresh, hused, -⟩
  · rw [if_pos hfail]
    exact (bmapCleanup_spec (h.trans hgrows) hent'.1 hnew ret hfail).mono fun _ _ hv => Or.inl hv
  · rw [if_neg (not_not.2 rfl)]
    have hne : ino ≠ ent := fun heq => hfresh (heq ▸ hent)
    have hlen : (leBytes 4 ino).length = 4 := length_leBytes 4 ino
    have hoff : index * 4 < sfsBlksize ∧ index * 4 + (leBytes 4 ino).length ≤ sfsBlksize := by
      rw [hlen]
      unfold sfsBlkNentry at hindex
      unfold sfsBlksize
      omega
    refine (sfsWbuf_spec hgrows.free hent'.1.1 hent'.1.2.1 hoff.1 hoff.2).bind fun ret v hv => ?_
    rcases hv with ⟨rfl, requests, rfl⟩ | ⟨rfl, requests, rfl⟩
    · rw [if_neg (not_not.2 rfl)]
      refine Or.inr ⟨ino, rfl, hgrows.blocks, hgrows.sin, (hgrows.free.write ent _).requests requests, hfresh, hused,
        fun j hj => ⟨(hgrows.used j hj).1, fun hj' => ?_⟩, ?_⟩
      · exact (Function.update_of_ne hj' _ _).trans (hgrows.used j hj).2
      · refine (Function.update_self _ _ _).trans ?_
        rw [hent'.2]
    · rw [if_pos eInval_ne_zero]
      have hsame := hgrows.trans (hgrows.free.grows requests)
      refine (hsame.blockFree hused hfresh).bind fun _ w hw => ?_
      have hsw : Grows s w := h.trans hw.1
      exact (bmapCleanup_spec hsw (hw.1.used ent hent).1 hnew _ eInval_ne_zero).mono fun _ _ hx => Or.inl hx

/-! ## The list of blocks -/

/-- The blocks of an inode are the list, and the block of entries is none of them. -/
structure ListOf (s : Sfs) (din : Din) (L : List Nat) : Prop where
  blocks : din.blocks = L.length
  max : L.length ≤ ndirect + sfsBlkNentry
  slots : ∀ i < ndirect + sfsBlkNentry, s.blockNo din i = L.getD i 0
  used : ∀ b ∈ L, Used s b
  nodup : L.Nodup
  indirect : din.indirect ≠ 0 → Used s din.indirect ∧ din.indirect ∉ L

/-- The inode `n` is in memory, and its blocks are the list. -/
structure Maps (s : Sfs) (n : Nat) (L : List Nat) : Prop where
  free : FreeOk s
  inode : ∃ sin, s.sin n = some sin ∧ ListOf s sin.din L

theorem blockNo_congr (hs : FreeOk s) (ht : FreeOk t) (hused : din.indirect ≠ 0 → Used s din.indirect ∧ Used t din.indirect)
    (hdisk : din.indirect ≠ 0 → t.disk din.indirect = s.disk din.indirect) (i : Nat) :
    t.blockNo din i = s.blockNo din i := by
  unfold Sfs.blockNo
  by_cases hdirect : i < ndirect
  · rw [if_pos hdirect, if_pos hdirect]
  · rw [if_neg hdirect, if_neg hdirect]
    by_cases hzero : din.indirect = 0
    · rw [if_pos hzero, if_pos hzero]
    · rw [if_neg hzero, if_neg hzero, ht.block_eq (hused hzero).2.2.1, hs.block_eq (hused hzero).1.2.1, hdisk hzero]

/-- The list is kept while the blocks in use are. -/
theorem ListOf.grows (h : ListOf s din L) (hs : FreeOk s) (hgrows : Grows s t) : ListOf t din L := by
  refine ⟨h.blocks, h.max, fun i hi => ?_, fun b hb => (hgrows.used b (h.used b hb)).1, h.nodup, fun hne => ?_⟩
  · rw [blockNo_congr hs hgrows.free]
    · exact h.slots i hi
    · exact fun hne => ⟨(h.indirect hne).1, (hgrows.used _ (h.indirect hne).1).1⟩
    · exact fun hne => (hgrows.used _ (h.indirect hne).1).2
  · exact ⟨(hgrows.used _ (h.indirect hne).1).1, (h.indirect hne).2⟩

theorem Maps.grows (h : Maps s n L) (hgrows : Grows s t) : Maps t n L := by
  obtain ⟨sin, hsin, hlist⟩ := h.inode
  exact ⟨hgrows.free, sin, by rw [hgrows.sin, hsin], hlist.grows h.free hgrows⟩

theorem ListOf.slot_ne_zero (h : ListOf s din L) (hindex : index < L.length) : L.getD index 0 ≠ 0 := by
  rw [List.getD_eq_getElem?_getD, List.getElem?_eq_getElem hindex]
  exact (h.used _ (List.getElem_mem hindex)).1.ne'

theorem ListOf.used_slot (h : ListOf s din L) (hindex : index < L.length) : Used s (L.getD index 0) := by
  rw [List.getD_eq_getElem?_getD, List.getElem?_eq_getElem hindex]
  exact h.used _ (List.getElem_mem hindex)

theorem ListOf.slot_length (h : ListOf s din L) (hmax : L.length < ndirect + sfsBlkNentry) :
    s.blockNo din L.length = 0 := by
  rw [h.slots _ hmax, List.getD_eq_getElem?_getD, List.getElem?_eq_none (le_refl _)]
  rfl

theorem triple_derefSin_of {E : Halt → Prop} {Q : Sin → Sfs → Prop} (h : s.sin n = some sin) :
    Triple E (derefSin n) s Q ↔ Q sin s := by
  unfold derefSin
  rw [triple_bind, triple_get, h]
  exact triple_pure

theorem bmapOut_spec (hs : FreeOk s) (h : Used s b) : Triple Never (bmapOut b) s fun r t => r = (0, b) ∧ t = s := by
  unfold bmapOut
  rw [if_neg h.1.ne']
  refine (h.inuse hs).bind fun inuse t ht => ?_
  obtain ⟨rfl, rfl⟩ := ht
  rw [triple_bind, triple_assert_of rfl]
  exact ⟨rfl, rfl⟩

/-- The bytes of an entry are in its block. -/
theorem entry_bounds (hindex : index < sfsBlkNentry) : index * 4 < sfsBlksize ∧ index * 4 + 4 ≤ sfsBlksize := by
  unfold sfsBlkNentry at hindex
  unfold sfsBlksize
  omega

/-- What an entry of the block of entries says. -/
theorem blockNo_entry (hs : FreeOk s) (hent : Used s din.indirect) (hindex : ¬ index < ndirect) :
    s.blockNo din index = leNat ((s.disk din.indirect).bytes ((index - ndirect) * 4) 4) := by
  unfold Sfs.blockNo
  rw [if_neg hindex, if_neg hent.1.ne', hs.block_eq hent.2.1]

theorem blockNo_direct (hindex : index < ndirect) : s.blockNo din index = din.direct index := by
  unfold Sfs.blockNo
  rw [if_pos hindex]

/-! ## Looking up a block -/

theorem bmapGet_lookup (hs : FreeOk s) (hsin : s.sin n = some sin) (h : ListOf s sin.din L) (hindex : index < L.length) :
    Triple Never (sfsBmapGetNolock n index false) s fun r t => Quiet s t ∧
      (r = (0, L.getD index 0) ∧ (Served s → Served t) ∨ r.1 = -eInval ∧ ¬ Served s) := by
  have hmax := hindex.trans_le h.max
  have hslot := h.slots index hmax
  have hused := h.used_slot hindex
  unfold sfsBmapGetNolock
  rw [triple_bind, triple_derefSin_of hsin]
  refine triple_ite (fun hdirect => ?_) fun hdirect => ?_
  · rw [blockNo_direct hdirect] at hslot
    dsimp only
    rw [if_neg (fun hnew => by simp at hnew), hslot]
    refine (bmapOut_spec hs hused).mono fun r t hr => ?_
    exact ⟨hr.2 ▸ Quiet.refl, Or.inl ⟨hr.1, fun h => hr.2 ▸ h⟩⟩
  · have hentry : index - ndirect < sfsBlkNentry := by omega
    have hne : sin.din.indirect ≠ 0 := by
      intro hzero
      unfold Sfs.blockNo at hslot
      rw [if_neg hdirect, if_pos hzero] at hslot
      exact hused.1.ne hslot
    have hent := (h.indirect hne).1
    have hbounds := entry_bounds hentry
    rw [blockNo_entry hs hent hdirect] at hslot
    rw [if_pos hentry, triple_bind]
    unfold sfsBmapGetSubNolock
    rw [triple_bind, triple_assert_of hentry, if_pos hne]
    refine (sfsRbuf_spec hs hent.1 hent.2.1 hbounds.1 hbounds.2).bind fun r t hr => ?_
    obtain ⟨ret, bytes⟩ := r
    obtain ⟨⟨requests, rfl⟩, ⟨hread, hkept⟩ | ⟨hfail, hserved⟩⟩ := hr
    · obtain ⟨rfl, rfl⟩ := Prod.mk.inj hread
      dsimp only
      rw [if_neg (not_not.2 rfl), if_pos (Or.inr rfl), triple_pure, hslot]
      dsimp only
      rw [if_neg (not_not.2 rfl), if_neg (not_not.2 rfl)]
      refine (bmapOut_spec (hs.requests requests) hused).mono fun r u hr => ?_
      exact ⟨⟨requests, hr.2⟩, Or.inl ⟨hr.1, fun h => hr.2 ▸ hkept h⟩⟩
    · have hret : ret ≠ 0 := hfail.trans_ne eInval_ne_zero
      dsimp only
      rw [if_pos hret, triple_pure]
      dsimp only
      rw [if_pos hret]
      exact ⟨⟨requests, rfl⟩, Or.inr ⟨hfail, hserved⟩⟩

/-- A look-up of a block of the list returns it, or fails. -/
theorem sfsBmapLoad_lookup (h : Maps s n L) (hindex : index < L.length) :
    Triple Never (sfsBmapLoadNolock n index) s fun r t => Quiet s t ∧
      (r = (0, L.getD index 0) ∧ (Served s → Served t) ∨ r.1 = -eInval ∧ ¬ Served s) := by
  obtain ⟨sin, hsin, hlist⟩ := h.inode
  have hblocks := hlist.blocks
  unfold sfsBmapLoadNolock
  rw [triple_bind, triple_derefSin_of hsin, triple_bind, triple_assert_of (by omega)]
  have hcreate : decide (index = sin.din.blocks) = false := decide_eq_false (by omega)
  rw [hcreate]
  refine (bmapGet_lookup h.free hsin hlist hindex).bind fun r t hr => ?_
  obtain ⟨ret, ino⟩ := r
  obtain ⟨hquiet, ⟨hfound, hserved⟩ | hfail⟩ := hr
  · obtain ⟨rfl, rfl⟩ := Prod.mk.inj hfound
    have hgrows := hquiet.grows h.free
    dsimp only
    rw [if_neg (not_not.2 rfl)]
    refine ((hgrows.used _ (hlist.used_slot hindex)).1.inuse hgrows.free).bind fun inuse u hu => ?_
    obtain ⟨rfl, rfl⟩ := hu
    rw [triple_bind, triple_assert_of rfl, triple_bind]
    exact ⟨hquiet, Or.inl ⟨rfl, hserved⟩⟩
  · dsimp only at hfail ⊢
    rw [if_pos (hfail.1.trans_ne eInval_ne_zero)]
    exact ⟨hquiet, Or.inr hfail⟩

/-! ## Appending a block -/

/-- A state with another inode in memory. -/
def Sfs.putSin (s : Sfs) (n : Nat) (sin : Sin) : Sfs := { s with sin := Function.update s.sin n (some sin) }

theorem triple_modifyDin_of {E : Halt → Prop} {Q : Unit → Sfs → Prop} {f : Din → Din} {dirty : Bool}
    (h : s.sin n = some sin) :
    Triple E (modifyDin n f dirty) s Q ↔
      Q () (s.putSin n { sin with din := f sin.din, dirty := sin.dirty || dirty }) := by
  unfold modifyDin
  rw [triple_bind, triple_derefSin_of h]
  exact Iff.rfl

theorem FreeOk.putSin (h : FreeOk s) (n : Nat) (sin : Sin) : FreeOk (s.putSin n sin) :=
  ⟨h.small, h.nbits, h.range, h.unused⟩

theorem ListOf.putSin (h : ListOf s din L) (n : Nat) (sin : Sin) : ListOf (s.putSin n sin) din L :=
  ⟨h.blocks, h.max, h.slots, h.used, h.nodup, h.indirect⟩

theorem putSin_sin (s : Sfs) (n : Nat) (sin : Sin) : (s.putSin n sin).sin n = some sin :=
  Function.update_self _ _ _

/-- The inode has a new block at the end, which it does not count yet. -/
structure Appended (s : Sfs) (n : Nat) (L : List Nat) (ino : Nat) (t : Sfs) : Prop where
  free : FreeOk t
  fresh : ino ∉ L
  used : Used t ino
  inode : ∃ sin, t.sin n = some sin ∧ sin.din.blocks = L.length ∧
    ListOf t { sin.din with blocks := L.length + 1 } (L ++ [ino])

theorem getD_append_singleton (L : List Nat) (x i : Nat) :
    (L ++ [x]).getD i 0 = if i = L.length then x else L.getD i 0 := by
  rcases lt_trichotomy i L.length with hlt | rfl | hlt
  · rw [if_neg hlt.ne, List.getD_eq_getElem?_getD, List.getD_eq_getElem?_getD, List.getElem?_append_left hlt]
  · rw [if_pos rfl, List.getD_eq_getElem?_getD]
    simp
  · rw [if_neg hlt.ne', List.getD_eq_getElem?_getD, List.getD_eq_getElem?_getD, List.getElem?_eq_none hlt.le,
      List.getElem?_eq_none]
    rw [List.length_append, List.length_singleton]
    exact hlt

/-- A new block in a direct slot. -/
theorem ListOf.append_direct (h : ListOf s din L) (hs : FreeOk s) (hlen : L.length < ndirect) (hgrows : Grows s t)
    (hfresh : ¬ Used s ino) (hused : Used t ino) :
    ListOf t { din with direct := Function.update din.direct L.length ino, blocks := L.length + 1 } (L ++ [ino]) := by
  have ht := h.grows hs hgrows
  have hnot : ino ∉ L := fun hin => hfresh (h.used ino hin)
  refine ⟨?_, ?_, fun i hi => ?_, fun b hb => ?_, ?_, fun hne => ⟨(ht.indirect hne).1, fun hin => ?_⟩⟩
  · rw [List.length_append, List.length_singleton]
  · rw [List.length_append, List.length_singleton]
    unfold sfsBlkNentry
    omega
  · rw [getD_append_singleton]
    by_cases hdirect : i < ndirect
    · rw [blockNo_direct hdirect]
      by_cases hlast : i = L.length
      · rw [if_pos hlast, hlast]
        exact Function.update_self _ _ _
      · rw [if_neg hlast]
        refine (Function.update_of_ne hlast _ _).trans ?_
        rw [← blockNo_direct hdirect]
        exact ht.slots i hi
    · rw [if_neg (by omega)]
      have hslot := ht.slots i hi
      unfold Sfs.blockNo at hslot ⊢
      rw [if_neg hdirect] at hslot ⊢
      exact hslot
  · rcases List.mem_append.1 hb with hb | hb
    · exact ht.used b hb
    · exact List.mem_singleton.1 hb ▸ hused
  · exact List.nodup_append.2 ⟨h.nodup, List.nodup_singleton ino, fun a ha b hb heq => hnot
      (List.mem_singleton.1 hb ▸ heq ▸ ha)⟩
  · rcases List.mem_append.1 hin with hin | hin
    · exact (ht.indirect hne).2 hin
    · exact hfresh (List.mem_singleton.1 hin ▸ (h.indirect hne).1)

/-- A new block in an entry. The block of entries is the old one, or a new one without entries. -/
theorem ListOf.append_entry (h : ListOf s din L) (hs : FreeOk s) (hlen : ¬ L.length < ndirect)
    (hmax : L.length < ndirect + sfsBlkNentry) (hgrows : Grows s t) (hent : Used t ent)
    (hnew : ent = din.indirect ∨ din.indirect = 0 ∧ ¬ Used s ent ∧ t.disk ent = fun _ => 0)
    (hlinked : Linked t u ent (L.length - ndirect) ino) :
    ListOf u { din with indirect := ent, blocks := L.length + 1 } (L ++ [ino]) := by
  have husedL : ∀ b ∈ L, Used u b := fun b hb => (hlinked.used b (hgrows.used b (h.used b hb)).1).1
  have hnot : ino ∉ L := fun hin => hlinked.fresh (hgrows.used ino (h.used ino hin)).1
  have hentu := (hlinked.used ent hent).1
  have hentL : ent ∉ L := by
    rcases hnew with rfl | ⟨-, hfresh, -⟩
    · by_cases hzero : din.indirect = 0
      · exact absurd hent.1 (by omega)
      · exact (h.indirect hzero).2
    · exact fun hin => hfresh (h.used ent hin)
  have hino : ino < 2 ^ 32 := by
    have hlt := hlinked.new.2.1
    have hsmall := hlinked.free.small
    omega
  -- what the entries said before the new one
  have hold : ∀ i, ¬ i < ndirect → i < ndirect + sfsBlkNentry →
      leNat ((t.disk ent).bytes ((i - ndirect) * 4) 4) = L.getD i 0 := by
    intro i hdirect hi
    rcases hnew with rfl | ⟨hzero, -, hclear⟩
    · have hne : din.indirect ≠ 0 := hent.1.ne'
      rw [← h.slots i hi, blockNo_entry hs (h.indirect hne).1 hdirect, (hgrows.used _ (h.indirect hne).1).2]
    · have hslot := h.slots i hi
      unfold Sfs.blockNo at hslot
      rw [if_neg hdirect, if_pos hzero] at hslot
      rw [hclear, leNat_zero_bytes]
      exact hslot
  refine ⟨?_, ?_, fun i hi => ?_, fun b hb => ?_, ?_, fun _ => ⟨hentu, fun hin => ?_⟩⟩
  · rw [List.length_append, List.length_singleton]
  · rw [List.length_append, List.length_singleton]
    omega
  · rw [getD_append_singleton]
    by_cases hdirect : i < ndirect
    · rw [if_neg (by omega), blockNo_direct hdirect, ← h.slots i hi, blockNo_direct hdirect]
    · have hblock : Sfs.blockNo u { din with indirect := ent, blocks := L.length + 1 } i =
          leNat ((u.disk ent).bytes ((i - ndirect) * 4) 4) := blockNo_entry hlinked.free hentu hdirect
      rw [hblock, hlinked.entries]
      have hlen4 : (leBytes 4 ino).length = 4 := length_leBytes 4 ino
      by_cases hlast : i = L.length
      · rw [if_pos hlast, hlast]
        have hself := @bytes_put_self ((L.length - ndirect) * 4) (t.disk ent) (leBytes 4 ino)
        rw [hlen4] at hself
        rw [hself, leNat_leBytes 4 ino (by omega)]
      · rw [if_neg hlast, bytes_put_of_disjoint]
        · exact hold i hdirect hi
        · rw [hlen4]
          omega
  · rcases List.mem_append.1 hb with hb | hb
    · exact husedL b hb
    · exact List.mem_singleton.1 hb ▸ hlinked.new
  · exact List.nodup_append.2 ⟨h.nodup, List.nodup_singleton ino, fun a ha b hb heq => hnot
      (List.mem_singleton.1 hb ▸ heq ▸ ha)⟩
  · rcases List.mem_append.1 hin with hin | hin
    · exact hentL hin
    · exact hlinked.fresh (List.mem_singleton.1 hin ▸ hent)

/-- A new entry, in the block of entries or in a new one. -/
theorem bmapGetSub_append (hs : FreeOk s) (h : ListOf s din L) (hlen : ¬ L.length < ndirect)
    (hmax : L.length < ndirect + sfsBlkNentry) :
    Triple Never (sfsBmapGetSubNolock din.indirect (L.length - ndirect) true) s fun r u =>
      (r.1 ≠ 0 ∧ Grows s u) ∨ ∃ ent ino t, r = (0, ent, ino) ∧ Grows s t ∧ Used t ent ∧
        (ent = din.indirect ∨ din.indirect = 0 ∧ ¬ Used s ent ∧ t.disk ent = fun _ => 0) ∧
        Linked t u ent (L.length - ndirect) ino := by
  have hentry : L.length - ndirect < sfsBlkNentry := by omega
  have hbounds := entry_bounds hentry
  unfold sfsBmapGetSubNolock
  rw [triple_bind, triple_assert_of hentry]
  refine triple_ite (fun hne => ?_) fun hzero => ?_
  · have hent := (h.indirect hne).1
    have hslot := h.slot_length hmax
    rw [blockNo_entry hs hent hlen] at hslot
    refine (sfsRbuf_spec hs hent.1 hent.2.1 hbounds.1 hbounds.2).bind fun r t hr => ?_
    obtain ⟨ret, bytes⟩ := r
    obtain ⟨hquiet, ⟨hread, -⟩ | hfail⟩ := hr
    · obtain ⟨rfl, rfl⟩ := Prod.mk.inj hread
      dsimp only
      rw [if_neg (not_not.2 rfl), if_neg (by simp [hslot])]
      have hgrows := hquiet.grows hs
      have hent' := (hgrows.used _ hent).1
      refine (bmapNewBlock_spec hgrows hent' (fun hnot => absurd rfl hnot) hentry).mono fun r u hr => ?_
      rcases hr with hfail | ⟨ino, rfl, hlinked⟩
      · exact Or.inl hfail
      · exact Or.inr ⟨_, ino, t, rfl, hgrows, hent', Or.inl rfl, hlinked⟩
    · have hret : ret ≠ 0 := hfail.1.trans_ne eInval_ne_zero
      dsimp only
      rw [if_pos hret]
      exact Or.inl ⟨hret, hquiet.grows hs⟩
  · have hzero' : din.indirect = 0 := not_not.1 hzero
    rw [if_neg (by simp)]
    refine (sfsBlockAlloc_spec hs).bind fun r t hr => ?_
    obtain ⟨ret, ent⟩ := r
    obtain ⟨hgrows, hfail | ⟨hret, hfresh, hused, hclear⟩⟩ := hr
    · dsimp only at hfail ⊢
      rw [if_pos hfail]
      exact Or.inl ⟨hfail, hgrows⟩
    · dsimp only at hret hfresh hused hclear ⊢
      rw [if_neg (not_not.2 hret)]
      refine (bmapNewBlock_spec hgrows hused (fun _ => hfresh) hentry).mono fun r u hr => ?_
      rcases hr with hfail | ⟨ino, rfl, hlinked⟩
      · exact Or.inl hfail
      · exact Or.inr ⟨ent, ino, t, rfl, hgrows, hused, Or.inr ⟨hzero', hfresh, hclear⟩, hlinked⟩

theorem bmapGet_append (hs : FreeOk s) (hsin : s.sin n = some sin) (h : ListOf s sin.din L)
    (hmax : L.length < ndirect + sfsBlkNentry) :
    Triple Never (sfsBmapGetNolock n L.length true) s fun r t =>
      (r.1 ≠ 0 ∧ Grows s t) ∨ r.1 = 0 ∧ Appended s n L r.2 t := by
  unfold sfsBmapGetNolock
  rw [triple_bind, triple_derefSin_of hsin]
  refine triple_ite (fun hdirect => ?_) fun hdirect => ?_
  · have hslot := h.slot_length hmax
    rw [blockNo_direct hdirect] at hslot
    dsimp only
    rw [if_pos ⟨hslot, rfl⟩]
    refine (sfsBlockAlloc_spec hs).bind fun r t hr => ?_
    obtain ⟨ret, ino⟩ := r
    obtain ⟨hgrows, hfail | ⟨hret, hfresh, hused, -⟩⟩ := hr
    · dsimp only at hfail ⊢
      rw [if_pos hfail]
      exact Or.inl ⟨hfail, hgrows⟩
    · dsimp only at hret hfresh hused ⊢
      have hsin' : t.sin n = some sin := by rw [hgrows.sin, hsin]
      rw [if_neg (not_not.2 hret), triple_bind, triple_modifyDin_of hsin']
      refine (bmapOut_spec (hgrows.free.putSin n _) hused).mono fun r u hr => ?_
      obtain ⟨rfl, rfl⟩ := hr
      have hlist := (h.append_direct hs hdirect hgrows hfresh hused).putSin n
        { sin with din := { sin.din with direct := Function.update sin.din.direct L.length ino },
                   dirty := sin.dirty || true }
      exact Or.inr ⟨rfl, hgrows.free.putSin n _, fun hin => hfresh (h.used ino hin), hused, _, putSin_sin _ _ _, h.blocks,
        hlist⟩
  · have hentry : L.length - ndirect < sfsBlkNentry := by omega
    rw [if_pos hentry]
    refine (bmapGetSub_append hs h hdirect hmax).bind fun r u hr => ?_
    rcases hr with ⟨hfail, hgrows⟩ | ⟨ent, ino, t, rfl, hgrows, hent, hnew, hlinked⟩
    · obtain ⟨ret, ent, ino⟩ := r
      dsimp only at hfail ⊢
      rw [if_pos hfail]
      exact Or.inl ⟨hfail, hgrows⟩
    · have hlist := h.append_entry hs hdirect hmax hgrows hent hnew hlinked
      have hnot : ino ∉ L := fun hin => hlinked.fresh (hgrows.used ino (h.used ino hin)).1
      have hsin' : u.sin n = some sin := by rw [hlinked.sin, hgrows.sin, hsin]
      dsimp only
      rw [if_neg (not_not.2 rfl)]
      refine triple_ite (fun hne => ?_) fun heq => ?_
      · have hzero : sin.din.indirect = 0 := by
          rcases hnew with heq | ⟨hzero, -⟩
          · exact absurd heq hne
          · exact hzero
        rw [triple_bind, triple_assert_of hzero, triple_bind, triple_modifyDin_of hsin']
        refine (bmapOut_spec (hlinked.free.putSin n _) hlinked.new).mono fun r v hr => ?_
        obtain ⟨rfl, rfl⟩ := hr
        exact Or.inr ⟨rfl, hlinked.free.putSin n _, hnot, hlinked.new, _, putSin_sin _ _ _, h.blocks,
          hlist.putSin n _⟩
      · have heq' : ent = sin.din.indirect := not_not.1 heq
        refine (bmapOut_spec hlinked.free hlinked.new).mono fun r v hr => ?_
        obtain ⟨rfl, rfl⟩ := hr
        refine Or.inr ⟨rfl, hlinked.free, hnot, hlinked.new, sin, hsin', h.blocks, ?_⟩
        rw [heq'] at hlist
        exact hlist

/-- A block is appended to the list, or the list is as it was. -/
theorem sfsBmapLoad_append (h : Maps s n L) (hmax : L.length < ndirect + sfsBlkNentry) :
    Triple Never (sfsBmapLoadNolock n L.length) s fun r t =>
      (r.1 ≠ 0 ∧ Maps t n L) ∨ r.1 = 0 ∧ r.2 ∉ L ∧ Maps t n (L ++ [r.2]) := by
  obtain ⟨sin, hsin, hlist⟩ := h.inode
  have hblocks := hlist.blocks
  unfold sfsBmapLoadNolock
  rw [triple_bind, triple_derefSin_of hsin, triple_bind, triple_assert_of hblocks.ge]
  have hcreate : decide (L.length = sin.din.blocks) = true := decide_eq_true hblocks.symm
  rw [hcreate]
  refine (bmapGet_append h.free hsin hlist hmax).bind fun r t hr => ?_
  obtain ⟨ret, ino⟩ := r
  rcases hr with ⟨hfail, hgrows⟩ | ⟨hret, hnew⟩
  · dsimp only at hfail ⊢
    rw [if_pos hfail]
    exact Or.inl ⟨hfail, h.grows hgrows⟩
  · dsimp only at hret hnew ⊢
    obtain ⟨sin', hsin', hcount, hlist'⟩ := hnew.inode
    rw [if_neg (not_not.2 hret)]
    refine (hnew.used.inuse hnew.free).bind fun inuse u hu => ?_
    obtain ⟨rfl, rfl⟩ := hu
    rw [triple_bind, triple_assert_of rfl, triple_bind, if_pos rfl, triple_modifyDin_of hsin', triple_pure]
    refine Or.inr ⟨rfl, hnew.fresh, hnew.free.putSin n _, _, putSin_sin _ _ _, ?_⟩
    dsimp only
    rw [hcount]
    exact hlist'.putSin n _

/-! ## Taking the last block away -/

variable {K : List Nat} {din' : Din}

/-- The last block has been given back, and its slot is empty. -/
theorem ListOf.dropLast (h : ListOf s din (K ++ [b])) (hblocks : t.blocks = s.blocks)
    (hbits : ∀ j, t.freemap.bit j = (s.freemap.bit j || decide (j = b))) (hcount : din'.blocks = K.length)
    (hindirect : din'.indirect = din.indirect)
    (hslots : ∀ i < ndirect + sfsBlkNentry, t.blockNo din' i = if i = K.length then 0 else s.blockNo din i) :
    ListOf t din' K := by
  have hmax := h.max
  rw [List.length_append, List.length_singleton] at hmax
  obtain ⟨hnodup, -, hdisjoint⟩ := List.nodup_append.1 h.nodup
  have hkeep : ∀ j, j ≠ b → Used s j → Used t j := by
    intro j hne hj
    refine ⟨hj.1, hblocks.symm ▸ hj.2.1, ?_⟩
    rw [hbits j, hj.2.2]
    simp [hne]
  refine ⟨hcount, by omega, fun i hi => ?_, fun x hx => ?_, hnodup, fun hne => ?_⟩
  · rw [hslots i hi]
    by_cases hlast : i = K.length
    · rw [if_pos hlast, hlast, List.getD_eq_getElem?_getD, List.getElem?_eq_none (le_refl _)]
      rfl
    · rw [if_neg hlast, h.slots i hi, getD_append_singleton, if_neg hlast]
  · exact hkeep x (hdisjoint x hx b List.mem_cons_self) (h.used x (List.mem_append_left _ hx))
  · rw [hindirect] at hne ⊢
    obtain ⟨hused, hnot⟩ := h.indirect hne
    refine ⟨hkeep _ (fun heq => hnot ?_) hused, fun hin => hnot (List.mem_append_left _ hin)⟩
    exact heq ▸ List.mem_append_right K List.mem_cons_self

/-- The entry of the last block is cleared, and the block is given back. -/
theorem sfsBmapFreeSub_spec (hs : FreeOk s) (h : ListOf s din (K ++ [b])) (hdirect : ¬ K.length < ndirect) :
    Triple Never (sfsBmapFreeSubNolock din.indirect (K.length - ndirect)) s fun r t => t.sin = s.sin ∧ FreeOk t ∧
      ((r ≠ 0 ∧ Grows s t) ∨ r = 0 ∧ ListOf t { din with blocks := K.length } K) := by
  have hmax := h.max
  rw [List.length_append, List.length_singleton] at hmax
  have hindex : K.length < ndirect + sfsBlkNentry := by omega
  have hentry : K.length - ndirect < sfsBlkNentry := by omega
  have hbounds := entry_bounds hentry
  have hb : Used s b := h.used b (List.mem_append_right K List.mem_cons_self)
  have hslot := h.slots K.length hindex
  rw [getD_append_singleton, if_pos rfl] at hslot
  have hne : din.indirect ≠ 0 := by
    intro hzero
    unfold Sfs.blockNo at hslot
    rw [if_neg hdirect, if_pos hzero] at hslot
    exact hb.1.ne hslot
  obtain ⟨hent, hnot⟩ := h.indirect hne
  rw [blockNo_entry hs hent hdirect] at hslot
  unfold sfsBmapFreeSubNolock
  refine (hent.inuse hs).bind fun inuse t ht => ?_
  obtain ⟨rfl, rfl⟩ := ht
  rw [triple_bind, triple_assert_of ⟨rfl, hentry⟩]
  refine (sfsRbuf_spec hs hent.1 hent.2.1 hbounds.1 hbounds.2).bind fun r u hr => ?_
  obtain ⟨ret, bytes⟩ := r
  obtain ⟨⟨requests, rfl⟩, ⟨hread, -⟩ | hfail⟩ := hr
  · obtain ⟨rfl, rfl⟩ := Prod.mk.inj hread
    dsimp only
    rw [if_neg (not_not.2 rfl), hslot, if_pos hb.1.ne']
    have hs' := hs.requests requests
    have hfits : (K.length - ndirect) * 4 + (leBytes 4 0).length ≤ sfsBlksize := by
      rw [length_leBytes]
      exact hbounds.2
    refine (sfsWbuf_spec hs' hent.1 hent.2.1 hbounds.1 hfits).bind fun ret v hv => ?_
    rcases hv with ⟨rfl, requests', rfl⟩ | ⟨rfl, requests', rfl⟩
    · rw [if_neg (not_not.2 rfl)]
      have hs'' := (hs'.write din.indirect ((t.disk din.indirect).put ((K.length - ndirect) * 4) (leBytes 4 0))).requests
        requests'
      refine (blockFree_spec hs'' hb).bind fun _ w hw => ?_
      obtain ⟨hblocks, hsin, hdisk, hfree, hbits⟩ := hw
      refine ⟨hsin, hfree, Or.inr ⟨rfl, h.dropLast hblocks hbits rfl rfl fun i hi => ?_⟩⟩
      have hentw : Used w din.indirect := by
        refine ⟨hent.1, hblocks.symm ▸ hent.2.1, ?_⟩
        rw [hbits]
        have hdiff : din.indirect ≠ b := fun heq => hnot (heq ▸ List.mem_append_right K List.mem_cons_self)
        have hbit : t.freemap.bit din.indirect = false := hent.2.2
        simp [hdiff]
        exact hbit
      have hbytes : w.disk din.indirect = (t.disk din.indirect).put ((K.length - ndirect) * 4) (leBytes 4 0) := by
        rw [hdisk]
        exact Function.update_self _ _ _
      by_cases hi' : i < ndirect
      · rw [blockNo_direct hi', blockNo_direct hi', if_neg (by omega)]
      · have hblock : Sfs.blockNo w { din with blocks := K.length } i =
            leNat ((w.disk din.indirect).bytes ((i - ndirect) * 4) 4) := blockNo_entry hfree hentw hi'
        rw [hblock, hbytes]
        by_cases hlast : i = K.length
        · rw [if_pos hlast, hlast]
          have hself := @bytes_put_self ((K.length - ndirect) * 4) (t.disk din.indirect) (leBytes 4 0)
          rw [length_leBytes] at hself
          rw [hself, leNat_leBytes 4 0 (by decide)]
        · rw [if_neg hlast, bytes_put_of_disjoint, blockNo_entry hs hent hi']
          rw [length_leBytes]
          omega
    · rw [if_pos eInval_ne_zero]
      refine ⟨rfl, hs'.requests requests', Or.inl ⟨eInval_ne_zero, ?_⟩⟩
      exact (hs.grows requests).trans (hs'.grows requests')
  · have hret : ret ≠ 0 := hfail.1.trans_ne eInval_ne_zero
    dsimp only
    rw [if_pos hret]
    exact ⟨rfl, hs.requests requests, Or.inl ⟨hret, hs.grows requests⟩⟩

/-- The last block of the list is taken away, or the list is as it was. -/
theorem sfsBmapTruncate_spec (h : Maps s n (K ++ [b])) :
    Triple Never (sfsBmapTruncateNolock n) s fun r t => (r ≠ 0 ∧ Maps t n (K ++ [b])) ∨ r = 0 ∧ Maps t n K := by
  obtain ⟨sin, hsin, hlist⟩ := h.inode
  have hs := h.free
  have hblocks := hlist.blocks
  rw [List.length_append, List.length_singleton] at hblocks
  have hmax := hlist.max
  rw [List.length_append, List.length_singleton] at hmax
  have hb : Used s b := hlist.used b (List.mem_append_right K List.mem_cons_self)
  have hlast : sin.din.blocks - 1 = K.length := by omega
  unfold sfsBmapTruncateNolock
  rw [triple_bind, triple_derefSin_of hsin, triple_bind, triple_assert_of (by omega), hlast]
  unfold sfsBmapFreeNolock
  rw [triple_bind, triple_bind, triple_derefSin_of hsin]
  refine triple_ite (fun hdirect => ?_) fun hdirect => ?_
  · have hslot := hlist.slots K.length (by omega)
    rw [getD_append_singleton, if_pos rfl, blockNo_direct hdirect] at hslot
    rw [hslot, if_pos hb.1.ne']
    refine (blockFree_spec hs hb).bind fun _ t ht => ?_
    obtain ⟨hsize, hsin', hdisk, hfree, hbits⟩ := ht
    have hsin_t : t.sin n = some sin := by rw [hsin', hsin]
    rw [triple_bind, triple_modifyDin_of hsin_t, triple_pure, if_neg (not_not.2 rfl), triple_bind,
      triple_modifyDin_of (putSin_sin _ _ _), triple_pure]
    refine Or.inr ⟨rfl, (hfree.putSin n _).putSin n _, _, putSin_sin _ _ _, ?_⟩
    have hslots : ∀ i < ndirect + sfsBlkNentry, t.blockNo { sin.din with
        direct := Function.update sin.din.direct K.length 0, blocks := sin.din.blocks - 1 } i =
          if i = K.length then 0 else s.blockNo sin.din i := by
      intro i hi
      by_cases hi' : i < ndirect
      · rw [blockNo_direct hi', blockNo_direct hi']
        by_cases heq : i = K.length
        · rw [if_pos heq, heq]
          exact Function.update_self _ _ _
        · rw [if_neg heq]
          exact Function.update_of_ne heq _ _
      · rw [if_neg (by omega)]
        unfold Sfs.blockNo Sfs.block
        rw [if_neg hi', if_neg hi', hdisk]
    have hdrop : ListOf t { sin.din with
        direct := Function.update sin.din.direct K.length 0, blocks := sin.din.blocks - 1 } K :=
      hlist.dropLast hsize hbits hlast rfl hslots
    exact (hdrop.putSin n _).putSin n _
  · have hne : sin.din.indirect ≠ 0 := by
      intro hzero
      have hslot := hlist.slots K.length (by omega)
      rw [getD_append_singleton, if_pos rfl] at hslot
      unfold Sfs.blockNo at hslot
      rw [if_neg hdirect, if_pos hzero] at hslot
      exact hb.1.ne hslot
    rw [if_pos (by omega : K.length - ndirect < sfsBlkNentry), if_pos hne]
    refine (sfsBmapFreeSub_spec hs hlist hdirect).mono fun ret t ht => ?_
    obtain ⟨hsin', hfree, hr⟩ := ht
    rcases hr with ⟨hret, hgrows⟩ | ⟨rfl, hlist'⟩
    · rw [if_pos hret]
      exact Or.inl ⟨hret, h.grows hgrows⟩
    · have hsin_t : t.sin n = some sin := by rw [hsin', hsin]
      rw [if_neg (not_not.2 rfl), triple_bind, triple_modifyDin_of hsin_t, triple_pure]
      refine Or.inr ⟨rfl, hfree.putSin n _, _, putSin_sin _ _ _, ?_⟩
      dsimp only
      rw [hlast]
      exact hlist'.putSin n _

/-! ## Runs -/

/-- The operations on the block map. -/
inductive BmapOp where
  | load (index : Nat)
  | truncate
  deriving DecidableEq, Repr

/-- An operation of the code on the inode `n`, with what it returns and the block that it has found. -/
def bmapOp (n : Nat) : BmapOp → SfsM (Int × Nat)
  | .load index => sfsBmapLoadNolock n index
  | .truncate => do
      let ret ← sfsBmapTruncateNolock n
      pure (ret, 0)

/-- What callers promise: a block is looked up, or the next one is appended, or there is one to be taken away. -/
def BmapCallable (L : List Nat) : BmapOp → Prop
  | .load index => index < L.length ∨ index = L.length ∧ index < ndirect + sfsBlkNentry
  | .truncate => L ≠ []

/-- The operation on a list. A failure leaves the list as it is. -/
def listAfter (L : List Nat) (op : BmapOp) (r : Int × Nat) : List Nat :=
  if r.1 ≠ 0 then L
  else
    match op with
    | .load index => if index = L.length then L ++ [r.2] else L
    | .truncate => L.dropLast

/-- What an operation of a list returns when it succeeds: a look-up the block of its position, and an append a block
that is in no position. -/
def ListReturns (L : List Nat) : BmapOp → Nat → Prop
  | .load index, ino => if index = L.length then ino ∉ L else L[index]? = some ino
  | .truncate, _ => True

theorem bmapOp_spec (h : Maps s n L) (op : BmapOp) (hcall : BmapCallable L op) :
    Triple Never (bmapOp n op) s fun r t => (r.1 = 0 → ListReturns L op r.2) ∧ Maps t n (listAfter L op r) := by
  cases op with
  | load index =>
      rcases hcall with hlt | ⟨rfl, hmax⟩
      · refine (sfsBmapLoad_lookup h hlt).mono fun r t hr => ?_
        obtain ⟨hquiet, hr⟩ := hr
        have hmaps := h.grows (hquiet.grows h.free)
        have hget : L[index]? = some (L.getD index 0) := by
          rw [List.getD_eq_getElem?_getD, List.getElem?_eq_getElem hlt]
          rfl
        refine ⟨fun hret => ?_, ?_⟩
        · rcases hr with ⟨rfl, -⟩ | hfail
          · simp only [ListReturns, if_neg hlt.ne]
            exact hget
          · exact absurd hret (hfail.1.trans_ne eInval_ne_zero)
        · simp only [listAfter, if_neg hlt.ne, ite_self]
          exact hmaps
      · refine (sfsBmapLoad_append h hmax).mono fun r t hr => ?_
        rcases hr with ⟨hfail, hmaps⟩ | ⟨hret, hfresh, hmaps⟩
        · refine ⟨fun hret => absurd hret hfail, ?_⟩
          simp only [listAfter, if_pos hfail]
          exact hmaps
        · refine ⟨fun _ => ?_, ?_⟩
          · simp only [ListReturns, if_true]
            exact hfresh
          · simp only [listAfter, if_neg (not_not.2 hret), if_true]
            exact hmaps
  | truncate =>
      obtain ⟨K, b, rfl⟩ := (List.eq_nil_or_concat L).resolve_left hcall
      rw [List.concat_eq_append] at h ⊢
      refine (sfsBmapTruncate_spec h).bind fun ret t hr => ?_
      rw [triple_pure]
      refine ⟨fun _ => trivial, ?_⟩
      rcases hr with ⟨hfail, hmaps⟩ | ⟨rfl, hmaps⟩
      · simp only [listAfter, if_pos hfail]
        exact hmaps
      · simp only [listAfter, if_neg (not_not.2 rfl), List.dropLast_concat]
        exact hmaps

/-- A step of a run: a call of the code on the inode `n`, with what it returned, beside the same operation of a
list. -/
def BmapStep (n : Nat) (x : Sfs × List Nat) (call : BmapOp × Int × Nat) (y : Sfs × List Nat) : Prop :=
  BmapCallable x.2 call.1 ∧ bmapOp n call.1 x.1 = Except.ok (call.2, y.1) ∧ y.2 = listAfter x.2 call.1 call.2

theorem Maps.step {x y : Sfs × List Nat} {call : BmapOp × Int × Nat} (h : Maps x.1 n x.2) (hstep : BmapStep n x call y) :
    Maps y.1 n y.2 := by
  obtain ⟨hcall, hok, hlist⟩ := hstep
  rw [hlist]
  exact ((bmapOp_spec h call.1 hcall).of_ok hok).2

/-- The code that never stops returns. -/
theorem exists_ok_of_triple {α : Type} {f : SfsM α} {Q : α → Sfs → Prop} (h : Triple Never f s Q) :
    ∃ a t, f s = Except.ok (a, t) ∧ Q a t := by
  cases hf : f s with
  | error e => exact (h.of_error hf).elim
  | ok x => exact ⟨x.1, x.2, rfl, h.of_ok hf⟩

/-- The inode of an empty file that is in memory. -/
def emptySin : Sin where
  din := { size := 0, type := typeFile, nlinks := 1, blocks := 0, direct := fun _ => 0, indirect := 0 }
  dirty := false
  reclaimCount := 1

/-- A disk of eight blocks, the last six of which are free, with an empty file. -/
def eightBlocks : Sfs where
  blocks := 8
  unusedBlocks := 6
  superDirty := false
  freemap := { nbits := 32, map := [0xFC], nbits_le := by decide }
  disk := fun _ _ => 0
  sin := fun n => if n = 1 then some emptySin else none
  requests := []

theorem eightBlocks_bit (b : Nat) : eightBlocks.freemap.bit b = true → 0 < b ∧ b < 8 := by
  intro hbit
  have hsmall : ∀ b < 32, eightBlocks.freemap.bit b = true → 0 < b ∧ b < 8 := by decide +kernel
  rcases Nat.lt_or_ge b 32 with hlt | hge
  · exact hsmall b hlt hbit
  · have hword : eightBlocks.freemap.word b = 0 := by
      unfold Bitmap.word
      rw [List.getD_eq_getElem?_getD, List.getElem?_eq_none]
      · rfl
      · exact (Nat.le_div_iff_mul_le (by decide)).2 hge
    unfold Bitmap.bit at hbit
    rw [hword] at hbit
    simp at hbit

theorem eightBlocks_maps : Maps eightBlocks 1 [] := by
  refine ⟨⟨by decide, by decide, eightBlocks_bit, by decide +kernel⟩, emptySin, rfl, ?_⟩
  refine ⟨rfl, Nat.zero_le _, fun i _ => ?_, fun b hb => absurd hb List.not_mem_nil, List.nodup_nil, fun hne => absurd rfl hne⟩
  unfold Sfs.blockNo
  split <;> rfl

/-- `eightBlocks` with a block in the file. -/
def eightBlocksAppended : Sfs :=
  { eightBlocks with
    unusedBlocks := 5
    superDirty := true
    freemap := { nbits := 32, map := [0xF8], nbits_le := by decide }
    disk := Function.update eightBlocks.disk 2 fun _ => 0
    sin := Function.update (Function.update eightBlocks.sin 1 (some { emptySin with
      din := { emptySin.din with direct := Function.update emptySin.din.direct 0 2 }, dirty := true })) 1
        (some { emptySin with
          din := { emptySin.din with direct := Function.update emptySin.din.direct 0 2, blocks := 1 }, dirty := true }) }

theorem eightBlocks_append : bmapOp 1 (BmapOp.load 0) eightBlocks = Except.ok ((0, 2), eightBlocksAppended) := rfl

end Vfs
end TriOS
