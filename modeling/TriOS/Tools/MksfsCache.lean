import TriOS.Library.Transition
import TriOS.Tools.Mksfs

/-!
# MksfsCache — the blocks of entries that mksfs keeps in memory

Every call that is made while an image is built keeps the numbers of the blocks and inodes in memory apart, and the
blocks in the hash lists. A new block is filed in the list of number 0, though, and a search for it looks in the list
of its own number.
-/

namespace TriOS
namespace Mksfs

open Outcome
open Vfs (Block)

/-! ## Calls -/

/-- A call while an image is built. -/
inductive BuildCall where
  | takeBlock (data : Block)
  | allocInode (real type : Nat)
  | allocBlock (ino : Nat)
  | search (ino : Nat)
  | update (cbp : Option Nat) (ino : Nat)
  | storeWord (cb i : Nat) (value : UInt32)
  | storeInode (ci : Nat) (f : CacheInode → CacheInode)

/-- What a call does to the file system. -/
def BuildCall.exec (s : Fs) : BuildCall → Outcome Fs
  | takeBlock data => sfsAllocIno s >>= fun r => writeBlock r.1 data r.2
  | allocInode real type => allocCacheInode s real 0 type >>= fun r => pure r.1
  | allocBlock ino => allocCacheBlock s ino >>= fun r => pure r.1
  | search _ => done s
  | update cbp ino => updateCache s cbp ino >>= fun r => pure r.1
  | storeWord cb i value => done (s.storeWord cb i value)
  | storeInode ci f => done (s.storeInode ci f)

/-- The first number behind the map of free blocks. -/
def Fs.firstIno (s : Fs) : Nat := sfsBlknFreemap + (s.ninos + sfsBlkbits - 1) / sfsBlkbits

/-- The numbers of the blocks and inodes in memory. -/
def Fs.numbers (s : Fs) : List Nat := s.cacheBlocks.map CacheBlock.ino ++ s.cacheInodes.map CacheInode.ino

/-- Only a block that was given out, and is not in memory yet, is loaded under its number. -/
def BuildCall.Callable (s : Fs) : BuildCall → Prop
  | allocBlock ino => ino = 0 ∨ s.firstIno ≤ ino ∧ ino < s.nextIno ∧ ino ∉ s.numbers
  | _ => True

/-- A call that returns. -/
def BuildStep (s : Fs) (call : BuildCall) (t : Fs) : Prop := call.Callable s ∧ call.exec s = done t

/-! ## The invariant -/

/-- The numbers in memory are those of different blocks that were given out, and what is in memory is in the
lists. -/
structure Built (s : Fs) : Prop where
  first : s.firstIno ≤ s.nextIno
  next : s.nextIno ≤ s.ninos
  space : s.firstIno < s.ninos
  blockNumber : ∀ block ∈ s.cacheBlocks, s.firstIno ≤ block.ino ∧ block.ino < s.nextIno
  inodeNumber : ∀ inode ∈ s.cacheInodes, inode.ino = sfsBlknRoot ∨ s.firstIno ≤ inode.ino ∧ inode.ino < s.nextIno
  nodup : s.numbers.Nodup
  listed : ∀ head cb, cb ∈ s.blocks head → cb < s.cacheBlocks.length
  filed : ∀ cb < s.cacheBlocks.length, ∃ head < hashListSize, cb ∈ s.blocks head

/-- The cache does what it is for: a block in memory is found again under its number, no number has two of them, and
closing the file system writes each under its number. -/
structure CacheRight (s : Fs) : Prop where
  found : ∀ cb block, s.cacheBlocks[cb]? = some block → searchCacheBlock s block.ino = some cb
  once : (s.cacheBlocks.map CacheBlock.ino).Nodup
  written : ∃ t, closeSfs s = done t ∧ ∀ block ∈ s.cacheBlocks, t.img block.ino = wordsBlock block.cache

variable {s t : Fs} {call : BuildCall} {cb ino n : Nat} {block : CacheBlock}

theorem hash32_lt (val : Nat) : hash32 val < hashListSize := by
  have hshift : (UInt32.ofNat val * 0x9e370001).toNat >>> 22 < 2 ^ 10 := by
    rw [Nat.shiftRight_eq_div_pow]
    exact Nat.div_lt_of_lt_mul (UInt32.toNat_lt _)
  unfold hash32 TriOS.hash32
  rw [UInt32.toNat_shiftRight]
  exact hshift

/-- A number that is not given out yet is not in memory. -/
theorem Built.fresh (h : Built s) (hn : s.nextIno ≤ n) : n ∉ s.numbers := by
  intro hmem
  have hfirst : sfsBlknFreemap ≤ s.nextIno := (Nat.le_add_right _ _).trans h.first
  rcases List.mem_append.1 hmem with hmem | hmem
  · obtain ⟨block, hblock, rfl⟩ := List.mem_map.1 hmem
    exact absurd (h.blockNumber block hblock).2 (Nat.not_lt.2 hn)
  · obtain ⟨inode, hinode, rfl⟩ := List.mem_map.1 hmem
    rcases h.inodeNumber inode hinode with hroot | ⟨-, hlt⟩
    · exact absurd (hfirst.trans (hn.trans_eq hroot)) (by decide)
    · exact absurd hlt (Nat.not_lt.2 hn)

/-- Two blocks in memory with one number are one. -/
theorem Built.block_inj (h : Built s) {cb' : Nat} {block' : CacheBlock} (hcb : s.cacheBlocks[cb]? = some block)
    (hcb' : s.cacheBlocks[cb']? = some block') (hino : block.ino = block'.ino) : cb = cb' := by
  obtain ⟨hlt, -⟩ := List.getElem?_eq_some_iff.1 hcb
  have hnodup : (s.cacheBlocks.map CacheBlock.ino).Nodup := (List.nodup_append.1 h.nodup).1
  refine (List.getElem?_inj (by rwa [List.length_map]) hnodup).1 ?_
  rw [List.getElem?_map, List.getElem?_map, hcb, hcb', Option.map_some, Option.map_some, hino]

/-- A block in memory is found under its number if it is in the list of that number. -/
theorem Built.search_iff (h : Built s) (hcb : s.cacheBlocks[cb]? = some block) :
    searchCacheBlock s block.ino = some cb ↔ cb ∈ s.blocks (hash32 block.ino) := by
  constructor
  · exact List.mem_of_find?_eq_some
  · intro hmem
    unfold searchCacheBlock
    have hown : s.blockIno cb = some block.ino := by
      unfold Fs.blockIno
      rw [hcb]
      rfl
    cases hfind : (s.blocks (hash32 block.ino)).find? fun cb => s.blockIno cb = some block.ino with
    | none => exact absurd (decide_eq_true hown) (List.find?_eq_none.1 hfind cb hmem)
    | some cb' =>
        have hino : s.blockIno cb' = some block.ino := by simpa using List.find?_some hfind
        unfold Fs.blockIno at hino
        obtain ⟨block', hcb', hino'⟩ := Option.map_eq_some_iff.1 hino
        rw [h.block_inj hcb hcb' hino'.symm]

/-! ## Closing -/

/-- Writes below the end of the image return. A block that is written, and always with the same data, is in the image
then. -/
theorem writeBlocks_spec (writes : List (Nat × Block)) (hlt : ∀ w ∈ writes, w.1 < s.ninos) :
    ∃ t, writeBlocks s writes = done t ∧
      ∀ n data, (∀ w ∈ writes, w.1 = n → w.2 = data) → (s.img n = data ∨ ∃ w ∈ writes, w.1 = n) → t.img n = data := by
  induction writes generalizing s with
  | nil =>
      refine ⟨s, rfl, fun n data _ h => h.resolve_right ?_⟩
      rintro ⟨w, hw, -⟩
      exact List.not_mem_nil hw
  | cons w rest ih =>
      obtain ⟨t, hrun, himg⟩ := @ih { s with img := Function.update s.img w.1 w.2 } fun w' hw' =>
        hlt w' (List.mem_cons_of_mem w hw')
      refine ⟨t, ?_, fun n data hsame h => himg n data (fun w' hw' => hsame w' (List.mem_cons_of_mem w hw')) ?_⟩
      · unfold writeBlocks writeBlock
        rw [assert_of (hlt w List.mem_cons_self)]
        exact hrun
      · by_cases hn : n = w.1
        · left
          dsimp only
          rw [hn, Function.update_self]
          exact hsame w List.mem_cons_self hn.symm
        · rcases h with himg' | ⟨w', hw', hwn⟩
          · left
            dsimp only
            rw [Function.update_of_ne hn]
            exact himg'
          · rcases List.mem_cons.1 hw' with rfl | hw'
            · exact absurd hwn.symm hn
            · exact Or.inr ⟨w', hw', hwn⟩

/-- The writes of `close_sfs`. -/
def closeWrites (s : Fs) : List (Nat × Block) :=
  freemapWrites s ++ (sfsBlknSuper, bytesBlock (encodeSuper s)) :: (List.range hashListSize).flatMap (flushWrites s)

/-- What `close_sfs` writes is below the first number, or an inode, or a block in memory. -/
theorem mem_closeWrites {w : Nat × Block} (hw : w ∈ closeWrites s) :
    w.1 < s.firstIno ∨ (∃ inode ∈ s.cacheInodes, w.1 = inode.ino) ∨
      ∃ block ∈ s.cacheBlocks, w = (block.ino, wordsBlock block.cache) := by
  rcases List.mem_append.1 hw with hw | hw
  · obtain ⟨k, hk, rfl⟩ := List.mem_map.1 hw
    exact Or.inl (Nat.add_lt_add_left (List.mem_range.1 hk) sfsBlknFreemap)
  · rcases List.mem_cons.1 hw with rfl | hw
    · exact Or.inl (Nat.add_pos_left (by decide) _)
    · obtain ⟨head, -, hw⟩ := List.mem_flatMap.1 hw
      rcases List.mem_append.1 hw with hw | hw
      · obtain ⟨cb, -, hcb⟩ := List.mem_filterMap.1 hw
        obtain ⟨block, hblock, rfl⟩ := Option.map_eq_some_iff.1 hcb
        exact Or.inr (Or.inr ⟨block, List.mem_of_getElem? hblock, rfl⟩)
      · obtain ⟨ci, -, hci⟩ := List.mem_filterMap.1 hw
        obtain ⟨inode, hinode, rfl⟩ := Option.map_eq_some_iff.1 hci
        exact Or.inr (Or.inl ⟨inode, List.mem_of_getElem? hinode, rfl⟩)

/-- A block in memory is among the writes. -/
theorem Built.written_block (h : Built s) (hblock : block ∈ s.cacheBlocks) :
    (block.ino, wordsBlock block.cache) ∈ closeWrites s := by
  obtain ⟨cb, hlt, rfl⟩ := List.mem_iff_getElem.1 hblock
  obtain ⟨head, hhead, hcb⟩ := h.filed cb hlt
  refine List.mem_append_right _ (List.mem_cons_of_mem _ (List.mem_flatMap.2 ⟨head, List.mem_range.2 hhead, ?_⟩))
  refine List.mem_append_left _ (List.mem_filterMap.2 ⟨cb, hcb, ?_⟩)
  rw [List.getElem?_eq_getElem hlt]
  rfl

/-- Closing the file system writes the blocks in memory under their numbers. -/
theorem Built.written (h : Built s) :
    ∃ t, closeSfs s = done t ∧ ∀ block ∈ s.cacheBlocks, t.img block.ino = wordsBlock block.cache := by
  have hlt : ∀ w ∈ closeWrites s, w.1 < s.ninos := by
    intro w hw
    rcases mem_closeWrites hw with hlow | ⟨inode, hinode, heq⟩ | ⟨block, hblock, rfl⟩
    · exact hlow.trans h.space
    · rcases h.inodeNumber inode hinode with hroot | ⟨-, hnext⟩
      · have htwo : sfsBlknFreemap ≤ s.ninos := ((Nat.le_add_right _ _).trans h.first).trans h.next
        rw [heq, hroot]
        exact htwo
      · rw [heq]
        exact hnext.trans_le h.next
    · exact (h.blockNumber block hblock).2.trans_le h.next
  obtain ⟨t, hrun, himg⟩ := writeBlocks_spec (closeWrites s) hlt
  refine ⟨t, hrun, fun block hblock => himg _ _ (fun w hw hn => ?_) (Or.inr ⟨_, h.written_block hblock, rfl⟩)⟩
  rcases mem_closeWrites hw with hlow | ⟨inode, hinode, heq⟩ | ⟨block', hblock', rfl⟩
  · exact absurd (h.blockNumber block hblock).1 (Nat.not_le.2 (hn ▸ hlow))
  · refine absurd (heq.symm.trans hn).symm ?_
    have hapart := (List.nodup_append.1 h.nodup).2.2
    exact hapart _ (List.mem_map_of_mem hblock) _ (List.mem_map_of_mem hinode)
  · obtain ⟨cb, hcb⟩ := List.getElem?_of_mem hblock
    obtain ⟨cb', hcb'⟩ := List.getElem?_of_mem hblock'
    cases h.block_inj hcb hcb' hn.symm
    cases hcb.symm.trans hcb'
    rfl

/-- What a cache that was built lacks is only that each block is in the list of its number. -/
theorem Built.right_iff (h : Built s) :
    CacheRight s ↔ ∀ cb block, s.cacheBlocks[cb]? = some block → cb ∈ s.blocks (hash32 block.ino) := by
  constructor
  · exact fun hright cb block hcb => (h.search_iff hcb).1 (hright.found cb block hcb)
  · exact fun hfiled => ⟨fun cb block hcb => (h.search_iff hcb).2 (hfiled cb block hcb),
      (List.nodup_append.1 h.nodup).1, h.written⟩

/-- Each block in memory is in the list of its number. -/
def Filed (s : Fs) : Prop := ∀ cb ino, s.blockIno cb = some ino → cb ∈ s.blocks (hash32 ino)

theorem Built.right_iff_filed (h : Built s) : CacheRight s ↔ Filed s := by
  rw [h.right_iff]
  constructor
  · intro hfiled cb ino hino
    obtain ⟨block, hcb, rfl⟩ := Option.map_eq_some_iff.1 hino
    exact hfiled cb block hcb
  · intro hfiled cb block hcb
    refine hfiled cb block.ino ?_
    unfold Fs.blockIno
    rw [hcb]
    rfl

/-! ## One call -/

/-- What is kept by a call that puts no block into memory. -/
structure SameBlocks (s t : Fs) : Prop where
  ninos : t.ninos = s.ninos
  next : s.nextIno ≤ t.nextIno ∧ t.nextIno ≤ s.ninos
  blockInos : t.cacheBlocks.map CacheBlock.ino = s.cacheBlocks.map CacheBlock.ino
  blocks : t.blocks = s.blocks

theorem Fs.firstIno_congr (h : t.ninos = s.ninos) : t.firstIno = s.firstIno := by
  unfold Fs.firstIno
  rw [h]

theorem Fs.blockIno_eq (s : Fs) (cb : Nat) : s.blockIno cb = (s.cacheBlocks.map CacheBlock.ino)[cb]? := by
  unfold Fs.blockIno
  rw [List.getElem?_map]

theorem SameBlocks.filed (h : SameBlocks s t) : Filed t ↔ Filed s := by
  unfold Filed
  simp only [Fs.blockIno_eq, h.blockInos, h.blocks]

/-- Such a call keeps the invariant when it keeps the numbers of the inodes in order. -/
theorem Built.sameBlocks (h : Built s) (hsame : SameBlocks s t)
    (hinodes : ∀ inode ∈ t.cacheInodes, inode.ino = sfsBlknRoot ∨ s.firstIno ≤ inode.ino ∧ inode.ino < t.nextIno)
    (hnodup : t.numbers.Nodup) : Built t := by
  have hfirst := Fs.firstIno_congr hsame.ninos
  have hlength : t.cacheBlocks.length = s.cacheBlocks.length := by
    simpa using congrArg List.length hsame.blockInos
  refine ⟨?_, ?_, ?_, fun block hblock => ?_, ?_, hnodup, fun head cb hcb => ?_, fun cb hcb => ?_⟩
  · rw [hfirst]
    exact h.first.trans hsame.next.1
  · rw [hsame.ninos]
    exact hsame.next.2
  · rw [hfirst, hsame.ninos]
    exact h.space
  · have hmem : block.ino ∈ s.cacheBlocks.map CacheBlock.ino := hsame.blockInos ▸ List.mem_map_of_mem hblock
    obtain ⟨block', hblock', heq⟩ := List.mem_map.1 hmem
    have hnumber := h.blockNumber block' hblock'
    rw [hfirst, ← heq]
    exact ⟨hnumber.1, hnumber.2.trans_le hsame.next.1⟩
  · rw [hfirst]
    exact hinodes
  · rw [hsame.blocks] at hcb
    exact (h.listed head cb hcb).trans_eq hlength.symm
  · rw [hsame.blocks]
    exact h.filed cb (hcb.trans_eq hlength)

/-- A file system with one more block in memory, in the list `head`. -/
def Fs.addBlock (s : Fs) (unusedBlocks nextIno ino head : Nat) : Fs :=
  { s with
    unusedBlocks := unusedBlocks
    nextIno := nextIno
    cacheBlocks := s.cacheBlocks ++ [{ ino := ino, cache := fun _ => 0 }]
    blocks := Function.update s.blocks head (s.cacheBlocks.length :: s.blocks head) }

variable {unused next head : Nat}

theorem mem_addBlock : cb ∈ (s.addBlock unused next ino head).blocks n ↔
    cb ∈ s.blocks n ∨ n = head ∧ cb = s.cacheBlocks.length := by
  unfold Fs.addBlock
  dsimp only
  by_cases hn : n = head
  · subst hn
    rw [Function.update_self, List.mem_cons]
    tauto
  · rw [Function.update_of_ne hn]
    tauto

theorem Built.addBlock (h : Built s) (hfresh : ino ∉ s.numbers) (hfirst : s.firstIno ≤ ino) (hino : ino < next)
    (hnext : s.nextIno ≤ next) (hninos : next ≤ s.ninos) (hhead : head < hashListSize) :
    Built (s.addBlock unused next ino head) := by
  refine ⟨h.first.trans hnext, hninos, h.space, fun block hblock => ?_, fun inode hinode => ?_, ?_,
    fun n cb hcb => ?_, fun cb hcb => ?_⟩
  · rcases List.mem_append.1 hblock with hblock | hblock
    · have hnumber := h.blockNumber block hblock
      exact ⟨hnumber.1, hnumber.2.trans_le hnext⟩
    · rw [List.mem_singleton.1 hblock]
      exact ⟨hfirst, hino⟩
  · refine (h.inodeNumber inode hinode).imp id fun hnumber => ⟨hnumber.1, hnumber.2.trans_le hnext⟩
  · unfold Fs.numbers Fs.addBlock
    dsimp only
    rw [List.map_append, List.append_assoc]
    exact List.nodup_middle.2 (List.nodup_cons.2 ⟨hfresh, h.nodup⟩)
  · have hlength : (s.addBlock unused next ino head).cacheBlocks.length = s.cacheBlocks.length + 1 :=
      List.length_append
    rw [hlength]
    rcases mem_addBlock.1 hcb with hcb | ⟨-, rfl⟩
    · exact Nat.lt_succ_of_lt (h.listed n cb hcb)
    · exact Nat.lt_succ_self _
  · have hlength : (s.addBlock unused next ino head).cacheBlocks.length = s.cacheBlocks.length + 1 :=
      List.length_append
    rw [hlength] at hcb
    rcases Nat.lt_succ_iff_lt_or_eq.1 hcb with hlt | rfl
    · obtain ⟨n, hn, hmem⟩ := h.filed cb hlt
      exact ⟨n, hn, mem_addBlock.2 (Or.inl hmem)⟩
    · exact ⟨head, hhead, mem_addBlock.2 (Or.inr ⟨rfl, rfl⟩)⟩

/-- The new block is in the list of its number if it was put there. -/
theorem Built.filed_addBlock (h : Built s) :
    Filed (s.addBlock unused next ino head) ↔ Filed s ∧ hash32 ino = head := by
  have hnew : (s.addBlock unused next ino head).blockIno s.cacheBlocks.length = some ino := by
    unfold Fs.blockIno Fs.addBlock
    dsimp only
    rw [List.getElem?_append_right le_rfl, Nat.sub_self]
    rfl
  have hold : ∀ cb < s.cacheBlocks.length, (s.addBlock unused next ino head).blockIno cb = s.blockIno cb := by
    intro cb hcb
    unfold Fs.blockIno Fs.addBlock
    dsimp only
    rw [List.getElem?_append_left hcb]
  have hlt : ∀ cb ino, s.blockIno cb = some ino → cb < s.cacheBlocks.length := by
    intro cb ino hino
    obtain ⟨block, hcb, -⟩ := Option.map_eq_some_iff.1 hino
    exact (List.getElem?_eq_some_iff.1 hcb).1
  constructor
  · intro hfiled
    constructor
    · intro cb n hn
      have hcb := hlt cb n hn
      have hmem := hfiled cb n ((hold cb hcb).trans hn)
      rcases mem_addBlock.1 hmem with hmem | ⟨-, rfl⟩
      · exact hmem
      · exact absurd hcb (lt_irrefl _)
    · rcases mem_addBlock.1 (hfiled _ _ hnew) with hmem | ⟨heq, -⟩
      · exact absurd (h.listed _ _ hmem) (lt_irrefl _)
      · exact heq
  · intro hfiled cb n hn
    rw [mem_addBlock]
    by_cases hcb : cb < s.cacheBlocks.length
    · exact Or.inl (hfiled.1 cb n ((hold cb hcb).symm.trans hn))
    · obtain ⟨block, hget, -⟩ := Option.map_eq_some_iff.1 hn
      have hbound : cb < s.cacheBlocks.length + 1 :=
        (List.getElem?_eq_some_iff.1 hget).1.trans_eq List.length_append
      have heq : cb = s.cacheBlocks.length := by omega
      subst heq
      cases hnew.symm.trans hn
      exact Or.inr ⟨hfiled.2, rfl⟩

/-! ## Every call -/

/-- A new block is put where it will be looked for: its number, the next one, goes into the list of number 0. -/
def BuildCall.Fits (s : Fs) : BuildCall → Prop
  | allocBlock ino => ino = 0 → hash32 s.nextIno = hash32 0
  | update _ ino => ino = 0 → hash32 s.nextIno = hash32 0
  | _ => True

theorem sfsAllocIno_done (halloc : sfsAllocIno s = done (t, n)) :
    s.nextIno < s.ninos ∧ n = s.nextIno ∧
      t = { s with unusedBlocks := s.unusedBlocks - 1, nextIno := s.nextIno + 1 } := by
  unfold sfsAllocIno at halloc
  by_cases hlt : s.nextIno < s.ninos
  · rw [if_pos hlt] at halloc
    cases halloc
    exact ⟨hlt, rfl, rfl⟩
  · rw [if_neg hlt] at halloc
    cases halloc

/-- A new block. -/
theorem allocCacheBlock_new (halloc : allocCacheBlock s 0 = done (t, cb)) :
    s.nextIno < s.ninos ∧ cb = s.cacheBlocks.length ∧
      t = s.addBlock (s.unusedBlocks - 1) (s.nextIno + 1) s.nextIno (hash32 0) := by
  unfold allocCacheBlock inoOrNew at halloc
  rw [if_neg (not_not.2 rfl)] at halloc
  obtain ⟨⟨u, number⟩, hino, halloc⟩ := bind_eq_done.1 halloc
  obtain ⟨hlt, rfl, rfl⟩ := sfsAllocIno_done hino
  cases halloc
  exact ⟨hlt, rfl, rfl⟩

/-- A block that is loaded. -/
theorem allocCacheBlock_load (hino : ino ≠ 0) :
    allocCacheBlock s ino =
      done (s.addBlock s.unusedBlocks s.nextIno ino (hash32 ino), s.cacheBlocks.length) := by
  unfold allocCacheBlock inoOrNew
  rw [if_pos hino]
  rfl

theorem Built.firstIno_pos (s : Fs) : 0 < s.firstIno := Nat.add_pos_left (by decide) _

/-- A new block keeps the invariant. -/
theorem Built.newBlock (h : Built s) (hlt : s.nextIno < s.ninos) :
    Built (s.addBlock (s.unusedBlocks - 1) (s.nextIno + 1) s.nextIno (hash32 0)) :=
  h.addBlock (h.fresh le_rfl) h.first (Nat.lt_succ_self _) (Nat.le_succ _) hlt (hash32_lt 0)

/-- A change of one element that keeps a field. -/
theorem map_modify_of {α β : Type} {f : α → α} {g : α → β} (hg : ∀ a, g (f a) = g a) (l : List α) (i : Nat) :
    (l.modify i f).map g = l.map g := by
  apply List.ext_getElem?
  intro j
  rw [List.getElem?_map, List.getElem?_map, List.getElem?_modify]
  cases l[j]? with
  | none => rfl
  | some a =>
      by_cases hij : i = j
      · simp [hij, hg]
      · simp [hij]

/-- A new inode. -/
theorem allocCacheInode_new {real type ci : Nat} (halloc : allocCacheInode s real 0 type = done (t, ci)) :
    s.nextIno < s.ninos ∧ ∃ inode lists, inode.ino = s.nextIno ∧
      t = { s with
        unusedBlocks := s.unusedBlocks - 1, nextIno := s.nextIno + 1
        cacheInodes := s.cacheInodes ++ [inode], inodes := lists } := by
  unfold allocCacheInode inoOrNew at halloc
  rw [if_neg (not_not.2 rfl)] at halloc
  obtain ⟨⟨u, number⟩, hino, halloc⟩ := bind_eq_done.1 halloc
  obtain ⟨hlt, rfl, rfl⟩ := sfsAllocIno_done hino
  cases halloc
  exact ⟨hlt, _, _, rfl, rfl⟩

/-- `update_cache` puts a new block into memory, or changes nothing. -/
theorem updateCache_done {cbp : Option Nat} {number : Nat} (hupdate : updateCache s cbp ino = done (t, cb, number)) :
    (ino = 0 ∧ s.nextIno < s.ninos ∧
        t = s.addBlock (s.unusedBlocks - 1) (s.nextIno + 1) s.nextIno (hash32 0)) ∨ ino ≠ 0 ∧ t = s := by
  unfold updateCache at hupdate
  by_cases hino : ino = 0
  · rw [if_pos hino] at hupdate
    obtain ⟨⟨u, cb'⟩, halloc, hupdate⟩ := bind_eq_done.1 hupdate
    obtain ⟨hlt, rfl, rfl⟩ := allocCacheBlock_new halloc
    refine Or.inl ⟨hino, hlt, ?_⟩
    dsimp only at hupdate
    split at hupdate
    · cases hupdate
      rfl
    · cases hupdate
  · rw [if_neg hino] at hupdate
    refine Or.inr ⟨hino, ?_⟩
    split at hupdate
    · cases hupdate
      rfl
    · split at hupdate
      · cases hupdate
        rfl
      · cases hupdate

theorem Built.step (h : Built s) (hstep : BuildStep s call t) : Built t ∧ (Filed t ↔ Filed s ∧ call.Fits s) := by
  obtain ⟨hcall, hexec⟩ := hstep
  cases call with
  | takeBlock data =>
      obtain ⟨⟨u, number⟩, hino, hwrite⟩ := bind_eq_done.1 hexec
      obtain ⟨hlt, rfl, rfl⟩ := sfsAllocIno_done hino
      obtain ⟨-, -, hwrite⟩ := bind_eq_done.1 hwrite
      cases hwrite
      have hsame : SameBlocks s { s with
          unusedBlocks := s.unusedBlocks - 1, nextIno := s.nextIno + 1
          img := Function.update s.img s.nextIno data } := ⟨rfl, ⟨Nat.le_succ _, hlt⟩, rfl, rfl⟩
      refine ⟨h.sameBlocks hsame (fun inode hinode => ?_) h.nodup, hsame.filed.trans (iff_of_eq (and_true _).symm)⟩
      exact (h.inodeNumber inode hinode).imp id fun hnumber => ⟨hnumber.1, Nat.lt_succ_of_lt hnumber.2⟩
  | allocInode real type =>
      obtain ⟨⟨u, ci⟩, halloc, hpure⟩ := bind_eq_done.1 hexec
      cases hpure
      obtain ⟨hlt, inode, lists, hino, hu⟩ := allocCacheInode_new halloc
      have hsame : SameBlocks s u := by
        rw [hu]
        exact ⟨rfl, ⟨Nat.le_succ _, hlt⟩, rfl, rfl⟩
      refine ⟨h.sameBlocks hsame (fun inode' hinode => ?_) ?_, hsame.filed.trans (iff_of_eq (and_true _).symm)⟩
      · rw [hu] at hinode ⊢
        rcases List.mem_append.1 hinode with hinode | hinode
        · exact (h.inodeNumber inode' hinode).imp id fun hnumber => ⟨hnumber.1, Nat.lt_succ_of_lt hnumber.2⟩
        · rw [List.mem_singleton.1 hinode, hino]
          exact Or.inr ⟨h.first, Nat.lt_succ_self _⟩
      · have hnumbers : u.numbers = s.numbers ++ [s.nextIno] := by
          rw [hu]
          unfold Fs.numbers
          rw [List.map_append, ← List.append_assoc, List.map_singleton, hino]
        rw [hnumbers]
        exact (List.perm_append_singleton _ _).nodup_iff.2 (List.nodup_cons.2 ⟨h.fresh le_rfl, h.nodup⟩)
  | allocBlock ino =>
      obtain ⟨⟨u, cb⟩, halloc, hpure⟩ := bind_eq_done.1 hexec
      cases hpure
      by_cases hino : ino = 0
      · subst hino
        obtain ⟨hlt, -, rfl⟩ := allocCacheBlock_new halloc
        refine ⟨h.newBlock hlt, h.filed_addBlock.trans (and_congr_right fun _ => ?_)⟩
        exact ⟨fun heq _ => heq, fun heq => heq rfl⟩
      · rw [allocCacheBlock_load hino] at halloc
        cases halloc
        obtain ⟨hfirst, hlt, hfresh⟩ := hcall.resolve_left hino
        refine ⟨h.addBlock hfresh hfirst hlt le_rfl h.next (hash32_lt ino),
          h.filed_addBlock.trans (and_congr_right fun _ => ?_)⟩
        exact ⟨fun _ hzero => absurd hzero hino, fun _ => rfl⟩
  | search ino =>
      cases hexec
      exact ⟨h, iff_of_eq (and_true _).symm⟩
  | update cbp ino =>
      obtain ⟨⟨u, cb, number⟩, hupdate, hpure⟩ := bind_eq_done.1 hexec
      cases hpure
      rcases updateCache_done hupdate with ⟨hino, hlt, rfl⟩ | ⟨hino, rfl⟩
      · refine ⟨h.newBlock hlt, h.filed_addBlock.trans (and_congr_right fun _ => ?_)⟩
        exact ⟨fun heq _ => heq, fun heq => heq hino⟩
      · refine ⟨h, ⟨fun hfiled => ⟨hfiled, fun hzero => absurd hzero hino⟩, And.left⟩⟩
  | storeWord cb i value =>
      cases hexec
      have hinos : (s.storeWord cb i value).cacheBlocks.map CacheBlock.ino = s.cacheBlocks.map CacheBlock.ino := by
        unfold Fs.storeWord
        refine map_modify_of ?_ _ _
        exact fun _ => rfl
      have hsame : SameBlocks s (s.storeWord cb i value) := ⟨rfl, ⟨le_rfl, h.next⟩, hinos, rfl⟩
      refine ⟨h.sameBlocks hsame h.inodeNumber ?_, hsame.filed.trans (iff_of_eq (and_true _).symm)⟩
      unfold Fs.numbers
      rw [hinos]
      exact h.nodup
  | storeInode ci f =>
      cases hexec
      have hinos : (s.storeInode ci f).cacheInodes.map CacheInode.ino = s.cacheInodes.map CacheInode.ino := by
        unfold Fs.storeInode
        refine map_modify_of ?_ _ _
        exact fun _ => rfl
      have hsame : SameBlocks s (s.storeInode ci f) := ⟨rfl, ⟨le_rfl, h.next⟩, rfl, rfl⟩
      refine ⟨h.sameBlocks hsame (fun inode hinode => ?_) ?_, hsame.filed.trans (iff_of_eq (and_true _).symm)⟩
      · have hmem : inode.ino ∈ s.cacheInodes.map CacheInode.ino := hinos ▸ List.mem_map_of_mem hinode
        obtain ⟨inode', hinode', heq⟩ := List.mem_map.1 hmem
        rw [← heq]
        exact h.inodeNumber inode' hinode'
      · unfold Fs.numbers
        rw [hinos]
        exact h.nodup

/-! ## Building an image -/

theorem createSfs_built {size : Nat} {rest : List UInt8} {img : Nat → Block}
    (hcreate : createSfs size rest img = done s) : Built s ∧ s.cacheBlocks = [] ∧ s.nextIno = s.firstIno := by
  unfold createSfs at hcreate
  dsimp only at hcreate
  generalize (if sfsMaxNblks < size / Vfs.sfsBlksize % 2 ^ 32 then sfsMaxNblks
    else size / Vfs.sfsBlksize % 2 ^ 32) = ninos at hcreate
  by_cases hspace : ninos ≤ sfsBlknFreemap + (ninos + sfsBlkbits - 1) / sfsBlkbits
  · rw [if_pos hspace] at hcreate
    cases hcreate
  · rw [if_neg hspace] at hcreate
    cases hcreate
    refine ⟨⟨le_rfl, (Nat.not_le.1 hspace).le, Nat.not_le.1 hspace, fun block hblock => ?_, fun inode hinode => ?_, ?_,
      fun head cb hcb => ?_, fun cb hcb => ?_⟩, rfl, rfl⟩
    · exact absurd hblock List.not_mem_nil
    · rw [List.mem_singleton.1 hinode]
      exact Or.inl rfl
    · exact List.nodup_singleton _
    · exact absurd hcb List.not_mem_nil
    · exact absurd hcb (Nat.not_lt_zero cb)

variable {calls : List BuildCall} {s₀ : Fs}

theorem Built.run (h : Built s₀) (hrun : Transition.Run BuildStep s₀ calls s) : Built s :=
  hrun.invariant Built (fun _ _ _ ht hstep => (ht.step hstep).1) h

/-- In every run of calls that builds an image, from its creation on, the cache of blocks is right if and only if
every call has put its new block where it will be looked for. -/
theorem block_cache {size : Nat} {rest : List UInt8} {img : Nat → Block} (hcreate : createSfs size rest img = done s₀)
    (hrun : Transition.Run BuildStep s₀ calls s) :
    CacheRight s ↔ Transition.Run (Transition.Guarded (fun u call => call.Fits u) BuildStep) s₀ calls s := by
  obtain ⟨hbuilt, hempty, -⟩ := createSfs_built hcreate
  have hstart : Filed s₀ := by
    intro cb ino hino
    unfold Fs.blockIno at hino
    rw [hempty] at hino
    cases hino
  rw [(hbuilt.run hrun).right_iff_filed]
  constructor
  · intro hfiled
    induction hrun with
    | nil => exact Transition.Run.nil
    | snoc hrun hstep ih =>
        have hkept := ((hbuilt.run hrun).step hstep).2.1 hfiled
        exact Transition.Run.snoc (ih hkept.1) ⟨hkept.2, hstep⟩
  · intro hguarded
    have hboth : Built s ∧ Filed s := by
      refine hguarded.invariant (fun u => Built u ∧ Filed u) (fun u call v hu hstep => ?_) ⟨hbuilt, hstart⟩
      obtain ⟨hv, hfiled⟩ := hu.1.step hstep.2
      exact ⟨hv, hfiled.2 ⟨hu.2, hstep.1⟩⟩
    exact hboth.2

/-- The image of a file of eight blocks. -/
def eightBlocksImg : Fs where
  superBlocks := 8
  unusedBlocks := 5
  info := [115, 105, 109, 112, 108, 101, 32, 102, 105, 108, 101, 32, 115, 121, 115, 116, 101, 109, 0]
  ninos := 8
  nextIno := 3
  cacheBlocks := []
  cacheInodes := [{ size := 0, type := Vfs.typeDir, nlinks := 0, blocks := 0, direct := fun _ => 0, indirect := 0,
                    dbIndirect := 0, real := 0, ino := 1, nblks := 0, l1 := none, l2 := none }]
  blocks := fun _ => []
  inodes := Function.update (fun _ => []) (hash64 0) [0]
  img := fun _ _ => 0

theorem createSfs_eightBlocks : createSfs (8 * 4096) [] (fun _ _ => 0) = done eightBlocksImg := rfl

/-- `eightBlocksImg` with a block of a file. -/
def eightBlocksTaken : Fs :=
  { eightBlocksImg with unusedBlocks := 4, nextIno := 4, img := Function.update (fun _ _ => 0) 3 fun _ => 7 }

theorem block_cache_taken : CacheRight eightBlocksTaken ↔
    Transition.Run (Transition.Guarded (fun u call => call.Fits u) BuildStep) eightBlocksImg
      [BuildCall.takeBlock fun _ => 7] eightBlocksTaken :=
  block_cache createSfs_eightBlocks (Transition.Run.snoc Transition.Run.nil ⟨trivial, rfl⟩)

/-- The first block that is allocated has the number 3, and is not found under it. -/
theorem block_cache_lost : ∃ t, Transition.Run BuildStep eightBlocksImg [BuildCall.allocBlock 0] t ∧
    t.blockIno 0 = some 3 ∧ searchCacheBlock t 3 = none ∧ ¬ CacheRight t := by
  refine ⟨eightBlocksImg.addBlock 4 4 3 (hash32 0), Transition.Run.snoc Transition.Run.nil ⟨Or.inl rfl, rfl⟩, rfl, rfl,
    fun hright => ?_⟩
  have hfound := hright.found 0 { ino := 3, cache := fun _ => 0 } rfl
  cases hfound

end Mksfs
end TriOS
