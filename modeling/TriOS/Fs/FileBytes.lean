import TriOS.Fs.SfsFrame

/-!
# FileBytes — a regular file as bytes

The blocks of an inode, one after the other, are the bytes of a file, of which `size` can be read. What the code does
to a part of one block is done to these bytes, and to no block that belongs to another inode. A request that has whole
blocks in it is not among those that are meant here: for such blocks the code uses the number that a block has in the
file as its number on the disk.
-/

namespace TriOS
namespace Vfs

open Hoare

variable {s t u : Sfs} {n ino b i k off len blkno : Nat} {sin : Sin} {L L' L'' K : List Nat} {data buf : List UInt8}
  {block : Block}

/-! ## Bytes -/

/-- The bytes of a list of blocks, and zeros behind them. -/
def Sfs.fileBytes (s : Sfs) (L : List Nat) : Block := fun p =>
  if p / sfsBlksize < L.length then s.disk (L.getD (p / sfsBlksize) 0) (p % sfsBlksize) else 0

theorem bytes_append (block : Block) (off len k : Nat) :
    block.bytes off (len + k) = block.bytes off len ++ block.bytes (off + len) k := by
  unfold Block.bytes
  rw [List.range_add, List.map_append, List.map_map]
  congr 1
  apply List.map_congr_left
  intro i _
  exact congrArg block (Nat.add_assoc off len i).symm

theorem put_nil (block : Block) (off : Nat) : block.put off [] = block := by
  funext p
  unfold Block.put
  rw [if_neg]
  rw [List.length_nil]
  omega

theorem put_append (block : Block) (off : Nat) (data more : List UInt8) :
    (block.put off data).put (off + data.length) more = block.put off (data ++ more) := by
  funext p
  unfold Block.put
  rw [List.length_append]
  by_cases hmore : off + data.length ≤ p ∧ p < off + data.length + more.length
  · rw [if_pos hmore, if_pos (by omega), List.getD_append_right _ _ _ _ (by omega), Nat.sub_add_eq]
  · rw [if_neg hmore]
    by_cases hdata : off ≤ p ∧ p < off + data.length
    · rw [if_pos hdata, if_pos (by omega), List.getD_append _ _ _ _ (by omega)]
    · rw [if_neg hdata, if_neg (by omega)]

/-- The front of a buffer, as the code copies it. -/
theorem range_map_getD (h : len ≤ buf.length) : ((List.range len).map fun i => buf.getD i 0) = buf.take len := by
  apply List.ext_getElem
  · rw [List.length_map, List.length_range, List.length_take, Nat.min_eq_left h]
  · intro i hi _
    rw [List.length_map, List.length_range] at hi
    simp [List.getElem?_eq_getElem (hi.trans_le h)]

theorem div_block (hoff : off < sfsBlksize) : (i * sfsBlksize + off) / sfsBlksize = i := by
  unfold sfsBlksize at *
  omega

theorem mod_block (hoff : off < sfsBlksize) : (i * sfsBlksize + off) % sfsBlksize = off := by
  unfold sfsBlksize at *
  omega

/-- The bytes of a part of a block of the file. -/
theorem fileBytes_part (hi : i < L.length) (hfits : off + len ≤ sfsBlksize) :
    (s.fileBytes L).bytes (i * sfsBlksize + off) len = (s.disk (L.getD i 0)).bytes off len := by
  unfold Block.bytes
  apply List.map_congr_left
  intro j hj
  have hlt : off + j < sfsBlksize := by
    have hj := List.mem_range.1 hj
    omega
  unfold Sfs.fileBytes
  rw [Nat.add_assoc, div_block hlt, mod_block hlt, if_pos hi]

/-- A part of a block is written. -/
theorem fileBytes_write (hnodup : L.Nodup) (hi : i < L.length) (hfits : off + data.length ≤ sfsBlksize) :
    (s.write (L.getD i 0) ((s.disk (L.getD i 0)).put off data)).fileBytes L = (s.fileBytes L).put (i * sfsBlksize + off) data := by
  funext p
  have hsplit := Nat.div_add_mod p sfsBlksize
  have hmod : p % sfsBlksize < sfsBlksize := Nat.mod_lt p (by decide)
  unfold Sfs.fileBytes Sfs.write Block.put
  dsimp only
  by_cases hp : p / sfsBlksize = i
  · rw [hp, if_pos hi, if_pos hi, Function.update_self]
    rw [hp, Nat.mul_comm] at hsplit
    by_cases hin : off ≤ p % sfsBlksize ∧ p % sfsBlksize < off + data.length
    · rw [if_pos hin, if_pos (by omega)]
      congr 1
      omega
    · rw [if_neg hin, if_neg (by omega)]
  · have hout : ¬ (i * sfsBlksize + off ≤ p ∧ p < i * sfsBlksize + off + data.length) := by
      rintro ⟨hle, hlt⟩
      have hcase := Nat.div_add_mod p sfsBlksize
      apply hp
      unfold sfsBlksize at *
      omega
    rw [if_neg hout]
    by_cases hlt : p / sfsBlksize < L.length
    · have hne : L.getD (p / sfsBlksize) 0 ≠ L.getD i 0 := by
        rw [List.getD_eq_getElem _ _ hlt, List.getD_eq_getElem _ _ hi]
        exact fun heq => hp ((hnodup.getElem_inj_iff).1 heq)
      rw [if_pos hlt, if_pos hlt, Function.update_of_ne hne]
    · rw [if_neg hlt, if_neg hlt]

/-- A block of zeros behind the others does not show. -/
theorem fileBytes_append (hkept : ∀ b ∈ L, t.disk b = s.disk b) (hclear : t.disk ino = fun _ => 0) :
    t.fileBytes (L ++ [ino]) = s.fileBytes L := by
  funext p
  unfold Sfs.fileBytes
  rw [List.length_append, List.length_singleton, getD_append_singleton]
  by_cases hlt : p / sfsBlksize < L.length
  · rw [if_pos (by omega), if_pos hlt, if_neg hlt.ne, List.getD_eq_getElem _ _ hlt,
      hkept _ (List.getElem_mem hlt)]
  · rw [if_neg hlt]
    by_cases hlast : p / sfsBlksize = L.length
    · rw [if_pos (by omega), if_pos hlast, hclear]
    · rw [if_neg (by omega)]

/-- The bytes of the last block are gone. -/
theorem fileBytes_dropLast (hkept : ∀ b ∈ K, t.disk b = s.disk b) :
    t.fileBytes K = fun p => if p / sfsBlksize < K.length then s.fileBytes (K ++ [b]) p else 0 := by
  funext p
  unfold Sfs.fileBytes
  rw [List.length_append, List.length_singleton, getD_append_singleton]
  by_cases hlt : p / sfsBlksize < K.length
  · rw [if_pos hlt, if_pos hlt, if_pos (by omega), if_neg hlt.ne, List.getD_eq_getElem _ _ hlt,
      hkept _ (List.getElem_mem hlt)]
  · rw [if_neg hlt, if_neg hlt]

theorem fileBytes_congr (hkept : ∀ b ∈ L, t.disk b = s.disk b) : t.fileBytes L = s.fileBytes L := by
  funext p
  unfold Sfs.fileBytes
  by_cases hlt : p / sfsBlksize < L.length
  · rw [if_pos hlt, if_pos hlt, List.getD_eq_getElem _ _ hlt, hkept _ (List.getElem_mem hlt)]
  · rw [if_neg hlt, if_neg hlt]

/-! ## The blocks of an inode -/

/-- The block belongs to the inode `n`, whose blocks are the list. -/
def Sfs.Owns (s : Sfs) (n : Nat) (L : List Nat) (b : Nat) : Prop :=
  b ∈ L ∨ ∃ sin, s.sin n = some sin ∧ sin.din.indirect ≠ 0 ∧ sin.din.indirect = b

/-- The size of an inode in memory. -/
def Sfs.size (s : Sfs) (n : Nat) : Nat := ((s.sin n).map fun sin => sin.din.size).getD 0

/-- Only the inode `n` and blocks that belong to it have changed, or blocks that were not in use. -/
structure Touches (s : Sfs) (n : Nat) (L : List Nat) (t : Sfs) (L' : List Nat) : Prop where
  maps : Maps t n L'
  others : ∀ m, m ≠ n → t.sin m = s.sin m
  kept : ∀ b, Used s b → ¬ s.Owns n L b → Used t b ∧ t.disk b = s.disk b
  new : ∀ b, t.Owns n L' b → s.Owns n L b ∨ ¬ Used s b
  type : ∀ sin, s.sin n = some sin → ∃ sin', t.sin n = some sin' ∧ sin'.din.type = sin.din.type

theorem Owns.of_sin (h : t.sin n = s.sin n) : t.Owns n L b ↔ s.Owns n L b := by
  unfold Sfs.Owns
  rw [h]

theorem size_congr (h : t.sin n = s.sin n) : t.size n = s.size n := by
  unfold Sfs.size
  rw [h]

theorem size_of_sin (h : s.sin n = some sin) : s.size n = sin.din.size := by
  unfold Sfs.size
  rw [h]
  rfl

/-- What belongs to an inode is in use. -/
theorem Maps.used (h : Maps s n L) (hb : s.Owns n L b) : Used s b := by
  obtain ⟨sin, hsin, hlist⟩ := h.inode
  rcases hb with hb | ⟨sin', hsin', hne, rfl⟩
  · exact hlist.used b hb
  · cases hsin.symm.trans hsin'
    exact (hlist.indirect hne).1

theorem Touches.refl (h : Maps s n L) : Touches s n L s L :=
  ⟨h, fun _ _ => rfl, fun _ hb _ => ⟨hb, rfl⟩, fun _ hb => Or.inl hb, fun sin hsin => ⟨sin, hsin, rfl⟩⟩

theorem Touches.trans (h : Touches s n L t L') (h' : Touches t n L' u L'') : Touches s n L u L'' := by
  -- what is kept by the first step does not belong to the inode after it
  have hnot : ∀ b, Used s b → ¬ s.Owns n L b → ¬ t.Owns n L' b := by
    intro b hb hout hown
    rcases h.new b hown with hold | hfresh
    · exact hout hold
    · exact hfresh hb
  refine ⟨h'.maps, fun m hm => (h'.others m hm).trans (h.others m hm), fun b hb hout => ?_, fun b hb => ?_,
    fun sin hsin => ?_⟩
  · obtain ⟨hused, hdisk⟩ := h.kept b hb hout
    obtain ⟨hused', hdisk'⟩ := h'.kept b hused (hnot b hb hout)
    exact ⟨hused', hdisk'.trans hdisk⟩
  · by_contra hno
    obtain ⟨hout, hb'⟩ := not_or.1 hno
    have hused := not_not.1 hb'
    rcases h'.new b hb with hold | hfresh
    · exact hnot b hused hout hold
    · exact hfresh (h.kept b hused hout).1
  · obtain ⟨sin', hsin', htype⟩ := h.type sin hsin
    obtain ⟨sin'', hsin'', htype'⟩ := h'.type sin' hsin'
    exact ⟨sin'', hsin'', htype'.trans htype⟩

theorem Grows.touches (h : Grows s t) (hm : Maps s n L) : Touches s n L t L :=
  ⟨hm.grows h, fun m _ => congrFun h.sin m, fun b hb _ => h.used b hb,
    fun _ hb => Or.inl ((Owns.of_sin (congrFun h.sin n)).1 hb),
    fun sin hsin => ⟨sin, (congrFun h.sin n).trans hsin, rfl⟩⟩

/-- Other values in the inode that are none of its block map. -/
theorem Touches.putSin {sin' : Sin} (h : Touches s n L t L') (hsin : t.sin n = some sin)
    (hdin : sin'.din = { sin.din with size := k }) : Touches s n L (t.putSin n sin') L' := by
  obtain ⟨sin₁, hsin₁, hlist⟩ := h.maps.inode
  cases hsin.symm.trans hsin₁
  have hlist' : ListOf t sin'.din L' := by
    rw [hdin]
    exact ⟨hlist.blocks, hlist.max, hlist.slots, hlist.used, hlist.nodup, hlist.indirect⟩
  have hindirect : sin'.din.indirect = sin.din.indirect := by rw [hdin]
  refine ⟨⟨h.maps.free.putSin n sin', sin', putSin_sin t n sin', hlist'.putSin n sin'⟩, fun m hm => ?_, h.kept,
    fun b hb => h.new b ?_, fun sin₀ hsin₀ => ?_⟩
  · exact (Function.update_of_ne hm _ _).trans (h.others m hm)
  · rcases hb with hb | ⟨sin₂, hsin₂, hne, rfl⟩
    · exact Or.inl hb
    · cases (putSin_sin t n sin').symm.trans hsin₂
      rw [hindirect] at hne ⊢
      exact Or.inr ⟨sin, hsin, hne, rfl⟩
  · obtain ⟨sin₂, hsin₂, htype⟩ := h.type sin₀ hsin₀
    cases hsin.symm.trans hsin₂
    refine ⟨sin', putSin_sin t n sin', ?_⟩
    rw [hdin]
    exact htype

/-- The bytes of a block of the list have changed. -/
theorem Maps.write (h : Maps s n L) (hb : b ∈ L) (block : Block) : Touches s n L (s.write b block) L := by
  obtain ⟨sin, hsin, hlist⟩ := h.inode
  have hlist' : ListOf (s.write b block) sin.din L := by
    refine ⟨hlist.blocks, hlist.max, fun i hi => ?_, hlist.used, hlist.nodup, hlist.indirect⟩
    rw [blockNo_congr (t := s.write b block) h.free (h.free.write b block)]
    · exact hlist.slots i hi
    · exact fun hne => ⟨(hlist.indirect hne).1, (hlist.indirect hne).1⟩
    · intro hne
      have hdiff : sin.din.indirect ≠ b := fun heq => (hlist.indirect hne).2 (heq ▸ hb)
      exact Function.update_of_ne hdiff _ _
  refine ⟨⟨h.free.write b block, sin, hsin, hlist'⟩, fun _ _ => rfl, fun c hc hout => ⟨hc, ?_⟩, fun c hc => Or.inl hc,
    fun sin' hsin' => ⟨sin', hsin', rfl⟩⟩
  have hne : c ≠ b := fun heq => hout (Or.inl (heq ▸ hb))
  exact Function.update_of_ne hne _ _

theorem Grown.touches (h : Grown s n sin ino t) (hsin : s.sin n = some sin) (hm : Maps t n (L ++ [ino])) :
    Touches s n L t (L ++ [ino]) ∧ t.size n = s.size n := by
  obtain ⟨sin', hsin', hsize, htype, hindirect⟩ := h.inode
  refine ⟨⟨hm, h.others, fun b hb hout => ⟨(h.kept b hb).1, (h.kept b hb).2 fun heq => ?_⟩, fun b hb => ?_,
    fun sin₁ hsin₁ => ?_⟩, ?_⟩
  · exact hout (Or.inr ⟨sin, hsin, heq ▸ hb.1.ne', heq.symm⟩)
  · rcases hb with hb | ⟨sin₁, hsin₁, hne, rfl⟩
    · rcases List.mem_append.1 hb with hb | hb
      · exact Or.inl (Or.inl hb)
      · exact Or.inr (List.mem_singleton.1 hb ▸ h.fresh)
    · cases hsin'.symm.trans hsin₁
      rcases hindirect with heq | hfresh
      · rw [heq] at hne ⊢
        exact Or.inl (Or.inr ⟨sin, hsin, hne, rfl⟩)
      · exact Or.inr hfresh
  · cases hsin.symm.trans hsin₁
    exact ⟨sin', hsin', htype⟩
  · rw [size_of_sin hsin, size_of_sin hsin', hsize]

theorem Shrunk.touches (h : Shrunk s n sin b t) (hsin : s.sin n = some sin) (hm : Maps t n L')
    (hsub : ∀ c ∈ L', c ∈ L) (hb : b ∈ L) : Touches s n L t L' ∧ t.size n = s.size n := by
  obtain ⟨sin', hsin', hsize, htype, hindirect⟩ := h.inode
  refine ⟨⟨hm, h.others, fun c hc hout => ⟨(h.kept c hc).1 fun heq => ?_, (h.kept c hc).2 fun heq => ?_⟩,
    fun c hc => ?_, fun sin₁ hsin₁ => ?_⟩, ?_⟩
  · exact hout (Or.inl (heq ▸ hb))
  · exact hout (Or.inr ⟨sin, hsin, heq ▸ hc.1.ne', heq.symm⟩)
  · rcases hc with hc | ⟨sin₁, hsin₁, hne, rfl⟩
    · exact Or.inl (Or.inl (hsub c hc))
    · cases hsin'.symm.trans hsin₁
      rw [hindirect] at hne ⊢
      exact Or.inl (Or.inr ⟨sin, hsin, hne, rfl⟩)
  · cases hsin.symm.trans hsin₁
    exact ⟨sin', hsin', htype⟩
  · rw [size_of_sin hsin, size_of_sin hsin', hsize]

/-! ## A part of a block -/

/-- Looking a block up, or appending it, does not change the bytes. -/
theorem sfsBmapLoad_touches (h : Maps s n L) (hi : i ≤ L.length) (hmax : i < ndirect + sfsBlkNentry) :
    Triple Never (sfsBmapLoadNolock n i) s fun r t => ∃ L', Touches s n L t L' ∧ t.size n = s.size n ∧
      t.fileBytes L' = s.fileBytes L ∧
      (r.1 ≠ 0 ∧ L' = L ∨ r.1 = 0 ∧ r.2 = L'.getD i 0 ∧ L'.length = max L.length (i + 1)) := by
  obtain ⟨sin, hsin, hlist⟩ := h.inode
  rcases hi.lt_or_eq with hlt | rfl
  · refine (sfsBmapLoad_lookup h hlt).mono fun r t hr => ?_
    obtain ⟨hquiet, hr⟩ := hr
    refine ⟨L, (hquiet.grows h.free).touches h, size_congr (congrFun hquiet.sin_eq n),
      fileBytes_congr fun b _ => congrFun hquiet.disk b, ?_⟩
    rcases hr with ⟨rfl, -⟩ | ⟨hfail, -⟩
    · exact Or.inr ⟨rfl, rfl, (Nat.max_eq_left hlt).symm⟩
    · exact Or.inl ⟨hfail.trans_ne eInval_ne_zero, rfl⟩
  · refine ((sfsBmapLoad_append h hmax).and_results (sfsBmapLoad_grown h.free hsin hlist hmax)).mono fun r t hr => ?_
    obtain ⟨⟨hfail, -⟩ | ⟨hzero, -, hmaps⟩, hframe⟩ := hr
    · obtain ⟨-, hgrows⟩ := hframe.resolve_right fun hok => hfail hok.1
      refine ⟨L, hgrows.touches h, size_congr (congrFun hgrows.sin n), ?_, Or.inl ⟨hfail, rfl⟩⟩
      exact fileBytes_congr fun b hb => (hgrows.used b (hlist.used b hb)).2
    · obtain ⟨-, hgrown⟩ := hframe.resolve_left fun hfail => hfail.1 hzero
      obtain ⟨htouches, hsize⟩ := hgrown.touches hsin hmaps
      refine ⟨L ++ [r.2], htouches, hsize, fileBytes_append (fun b hb => ?_) hgrown.clear, Or.inr ⟨hzero, ?_, ?_⟩⟩
      · refine (hgrown.kept b (hlist.used b hb)).2 fun heq => ?_
        exact (hlist.indirect (heq ▸ (hlist.used b hb).1.ne')).2 (heq ▸ hb)
      · rw [getD_append_singleton, if_pos rfl]
      · rw [List.length_append, List.length_singleton]
        exact (Nat.max_eq_right (Nat.le_succ _)).symm

theorem ioPart_read (h : Maps s n L) (hi : i < L.length) (hoff : off < sfsBlksize) (hfits : off + len ≤ sfsBlksize) :
    Triple Never (ioPart n buf i off len false) s fun r t => Quiet s t ∧
      (r = (0, (s.fileBytes L).bytes (i * sfsBlksize + off) len) ∨ r.1 = -eInval ∧ r.2 = []) := by
  obtain ⟨sin, hsin, hlist⟩ := h.inode
  unfold ioPart
  refine (sfsBmapLoad_lookup h hi).bind fun r t hr => ?_
  obtain ⟨ret, ino⟩ := r
  obtain ⟨hquiet, ⟨hfound, -⟩ | ⟨hfail, -⟩⟩ := hr
  · obtain ⟨rfl, rfl⟩ := Prod.mk.inj hfound
    have hused := (hquiet.grows h.free).used _ (hlist.used_slot hi)
    dsimp only
    rw [if_neg (not_not.2 rfl), if_neg Bool.false_ne_true, fileBytes_part hi hfits]
    refine ((sfsRbuf_spec (hquiet.grows h.free).free hused.1.1 hused.1.2.1 hoff hfits).and_results quiet_sfsRbuf).mono
      fun r u hr => ?_
    obtain ⟨⟨hquiet', hread⟩, -, hempty⟩ := hr
    refine ⟨hquiet.trans hquiet', ?_⟩
    rcases hread with ⟨hread, -⟩ | ⟨hfail, -⟩
    · rw [hused.2] at hread
      exact Or.inl hread
    · rcases hempty with ⟨hzero, -⟩ | hempty
      · exact absurd (hfail.symm.trans hzero) eInval_ne_zero
      · exact Or.inr hempty
  · have hret : ret ≠ 0 := hfail.trans_ne eInval_ne_zero
    dsimp only
    rw [if_pos hret]
    exact ⟨hquiet, Or.inr ⟨hfail, rfl⟩⟩

/-- What a write of the bytes from an offset on has done when it returns `r`. -/
structure Wrote (s : Sfs) (n : Nat) (L : List Nat) (off : Nat) (r : Int × List UInt8) (t : Sfs) (L' : List Nat) : Prop where
  touches : Touches s n L t L'
  size : t.size n = s.size n
  bytes : t.fileBytes L' = (s.fileBytes L).put off r.2
  grows : L.length ≤ L'.length
  inside : r.2 ≠ [] → off + r.2.length ≤ L'.length * sfsBlksize

theorem Wrote.trans {r r' : Int × List UInt8} (h : Wrote s n L off r t L')
    (h' : Wrote t n L' (off + r.2.length) r' u L'') : Wrote s n L off (r'.1, r.2 ++ r'.2) u L'' := by
  refine ⟨h.touches.trans h'.touches, h'.size.trans h.size, ?_, h.grows.trans h'.grows, fun hne => ?_⟩
  · rw [h'.bytes, h.bytes, put_append]
  · rw [List.length_append]
    have hgrows := Nat.mul_le_mul_right sfsBlksize h'.grows
    by_cases hlast : r'.2 = []
    · rw [hlast, List.append_nil] at hne
      have hfirst := h.inside hne
      rw [hlast, List.length_nil]
      omega
    · have hinside := h'.inside hlast
      omega

theorem ioPart_write (h : Maps s n L) (hi : i ≤ L.length) (hmax : i < ndirect + sfsBlkNentry)
    (hoff : off < sfsBlksize) (hfits : off + len ≤ sfsBlksize) (hlen : len ≤ buf.length) :
    Triple Never (ioPart n buf i off len true) s fun r t => ∃ L', Wrote s n L (i * sfsBlksize + off) r t L' ∧
      (r.1 ≠ 0 ∧ r.2 = [] ∨ r = (0, buf.take len) ∧ L'.length = max L.length (i + 1)) := by
  have hnothing : ∀ {t : Sfs} {L' : List Nat} {ret : Int}, Touches s n L t L' → t.size n = s.size n →
      t.fileBytes L' = s.fileBytes L → L.length ≤ L'.length →
      Wrote s n L (i * sfsBlksize + off) (ret, []) t L' := by
    intro t L' ret htouches hsize hbytes hgrows
    exact ⟨htouches, hsize, hbytes.trans (put_nil _ _).symm, hgrows, fun hne => absurd rfl hne⟩
  unfold ioPart
  refine (sfsBmapLoad_touches h hi hmax).bind fun r t hr => ?_
  obtain ⟨ret, ino⟩ := r
  obtain ⟨L', htouches, hsize, hbytes, ⟨hfail, rfl⟩ | ⟨hzero, hino, hlength⟩⟩ := hr
  · dsimp only at hfail ⊢
    rw [if_pos hfail]
    exact ⟨L', hnothing htouches hsize hbytes le_rfl, Or.inl ⟨hfail, rfl⟩⟩
  · dsimp only at hzero hino ⊢
    subst hzero hino
    have hi' : i < L'.length := by omega
    have hgrows : L.length ≤ L'.length := by omega
    obtain ⟨sin, hsin, hlist⟩ := htouches.maps.inode
    have hused := hlist.used_slot hi'
    have hlen' : (buf.take len).length = len := by rw [List.length_take, Nat.min_eq_left hlen]
    rw [if_neg (not_not.2 rfl), if_pos rfl, range_map_getD hlen]
    refine (sfsWbuf_spec htouches.maps.free hused.1 hused.2.1 hoff (by rw [hlen']; exact hfits)).bind fun ret u hu => ?_
    rcases hu with ⟨rfl, hquiet⟩ | ⟨rfl, hquiet⟩
    · have hin : L'.getD i 0 ∈ L' := by
        rw [List.getD_eq_getElem _ _ hi']
        exact List.getElem_mem hi'
      have hwrite := htouches.maps.write hin ((t.disk (L'.getD i 0)).put off (buf.take len))
      have hdone := htouches.trans (hwrite.trans ((hquiet.grows hwrite.maps.free).touches hwrite.maps))
      refine ⟨L', ⟨hdone, ?_, ?_, hgrows, fun _ => ?_⟩, Or.inr ⟨rfl, hlength⟩⟩
      · exact (size_congr (congrFun hquiet.sin_eq n)).trans hsize
      · rw [if_pos rfl, ← hbytes, ← fileBytes_write hlist.nodup hi' (by rw [hlen']; exact hfits)]
        exact fileBytes_congr fun b _ => congrFun hquiet.disk b
      · rw [if_pos rfl, hlen']
        have hmul := Nat.mul_le_mul_right sfsBlksize hi'
        rw [Nat.succ_mul] at hmul
        omega
    · have hdone := htouches.trans ((hquiet.grows htouches.maps.free).touches htouches.maps)
      rw [triple_pure, if_neg eInval_ne_zero]
      refine ⟨L', hnothing hdone ?_ ?_ hgrows, Or.inl ⟨eInval_ne_zero, rfl⟩⟩
      · exact (size_congr (congrFun hquiet.sin_eq n)).trans hsize
      · exact (fileBytes_congr fun b _ => congrFun hquiet.disk b).trans hbytes

/-! ## Requests without a whole block -/

/-- No block is wholly between the two offsets. -/
def NoWholeBlock (offset endpos : Nat) : Prop := ∀ b, offset ≤ b * sfsBlksize → endpos < (b + 1) * sfsBlksize

variable {offset endpos : Nat} {write : Bool}

theorem ioParts_aligned (halign : offset % sfsBlksize = 0) (hone : endpos / sfsBlksize - offset / sfsBlksize = 0)
    (hrest : endpos % sfsBlksize ≠ 0) : ioParts n buf offset endpos write =
      (ioPart n buf (offset / sfsBlksize) 0 (endpos % sfsBlksize) write >>= fun r => ioOut n offset r.1 r.2) := by
  unfold ioParts
  simp [halign, hone, hrest]

theorem ioParts_inside (halign : offset % sfsBlksize ≠ 0) (hone : endpos / sfsBlksize - offset / sfsBlksize = 0) :
    ioParts n buf offset endpos write =
      (ioPart n buf (offset / sfsBlksize) (offset % sfsBlksize) (endpos - offset) write >>= fun r =>
        ioOut n offset r.1 r.2) := by
  unfold ioParts
  simp [halign, hone]

theorem ioParts_across (halign : offset % sfsBlksize ≠ 0) (htwo : endpos / sfsBlksize - offset / sfsBlksize = 1) :
    ioParts n buf offset endpos write =
      (ioPart n buf (offset / sfsBlksize) (offset % sfsBlksize) (sfsBlksize - offset % sfsBlksize) write >>= fun r =>
        if r.1 ≠ 0 then ioOut n offset r.1 r.2
        else (if endpos % sfsBlksize ≠ 0 then
            ioPart n (buf.drop r.2.length) (offset / sfsBlksize + 1) 0 (endpos % sfsBlksize) write
          else pure (0, [])) >>= fun q => ioOut n offset q.1 (r.2 ++ q.2)) := by
  unfold ioParts
  simp [halign, htwo]

/-- Without a whole block, a request is the front of a block, a part inside a block, or a part on each side of the end
of a block. -/
theorem NoWholeBlock.cases (h : NoWholeBlock offset endpos) (hlt : offset < endpos) :
    (offset % sfsBlksize = 0 ∧ endpos / sfsBlksize - offset / sfsBlksize = 0 ∧ endpos % sfsBlksize ≠ 0) ∨
      (offset % sfsBlksize ≠ 0 ∧ endpos / sfsBlksize - offset / sfsBlksize = 0) ∨
        offset % sfsBlksize ≠ 0 ∧ endpos / sfsBlksize - offset / sfsBlksize = 1 := by
  have hfirst := h (offset / sfsBlksize)
  have hnext := h (offset / sfsBlksize + 1)
  have hsplit := Nat.div_add_mod offset sfsBlksize
  unfold sfsBlksize at *
  omega

theorem ioOut_keeps {ret : Int} (h : Maps s n L) (hsize : offset + data.length ≤ s.size n) :
    Triple Never (ioOut n offset ret data) s fun r t => r = (ret, data) ∧ t = s := by
  obtain ⟨sin, hsin, -⟩ := h.inode
  rw [size_of_sin hsin] at hsize
  unfold ioOut
  rw [triple_bind, triple_derefSin_of hsin, if_neg (Nat.not_lt.2 hsize), triple_bind]
  exact ⟨rfl, rfl⟩

theorem bytes_prefix (block : Block) (off : Nat) {k m : Nat} (h : k ≤ m) : block.bytes off k <+: block.bytes off m := by
  obtain ⟨d, rfl⟩ := Nat.exists_eq_add_of_le h
  rw [bytes_append]
  exact List.prefix_append _ _

/-- A read of the bytes between two offsets, or of the front of them. -/
def ReadsBytes (block : Block) (offset endpos : Nat) (r : Int × List UInt8) : Prop :=
  r = (0, block.bytes offset (endpos - offset)) ∨ r.1 = -eInval ∧ r.2 <+: block.bytes offset (endpos - offset)

/-! ### The places of the parts -/

theorem start_of_offset (offset : Nat) : offset / sfsBlksize * sfsBlksize + offset % sfsBlksize = offset :=
  Nat.div_add_mod' offset sfsBlksize

theorem part_aligned (halign : offset % sfsBlksize = 0) (hone : endpos / sfsBlksize - offset / sfsBlksize = 0)
    (hlt : offset < endpos) : endpos % sfsBlksize = endpos - offset := by
  unfold sfsBlksize at *
  omega

theorem part_inside (hone : endpos / sfsBlksize - offset / sfsBlksize = 0) (hlt : offset < endpos) :
    offset % sfsBlksize + (endpos - offset) ≤ sfsBlksize := by
  unfold sfsBlksize at *
  omega

theorem parts_across (htwo : endpos / sfsBlksize - offset / sfsBlksize = 1) :
    sfsBlksize - offset % sfsBlksize + endpos % sfsBlksize = endpos - offset ∧
      offset + (sfsBlksize - offset % sfsBlksize) = (offset / sfsBlksize + 1) * sfsBlksize := by
  unfold sfsBlksize at *
  omega

theorem index_lt {count : Nat} (hlt : offset < endpos) (hend : endpos ≤ count * sfsBlksize) :
    offset / sfsBlksize < count := by
  unfold sfsBlksize at *
  omega

theorem index_next_lt {count : Nat} (htwo : endpos / sfsBlksize - offset / sfsBlksize = 1)
    (hrest : endpos % sfsBlksize ≠ 0) (hend : endpos ≤ count * sfsBlksize) : offset / sfsBlksize + 1 < count := by
  unfold sfsBlksize at *
  omega

theorem ReadsBytes.of_empty {r : Int × List UInt8} (h : r.1 = -eInval ∧ r.2 = []) : ReadsBytes block offset endpos r := by
  obtain ⟨hret, hnil⟩ := h
  exact Or.inr ⟨hret, hnil ▸ List.nil_prefix⟩

/-- The exit of a read changes nothing, since the read does not go beyond the size. -/
theorem ioOut_read (h : Maps s n L) (hlt : offset < endpos) (hend : endpos ≤ s.size n) (hquiet : Quiet s t)
    {r : Int × List UInt8} (hr : ReadsBytes block offset endpos r) :
    Triple Never (ioOut n offset r.1 r.2) t fun r t => Quiet s t ∧ ReadsBytes block offset endpos r := by
  have hlen : r.2.length ≤ endpos - offset := by
    rcases hr with rfl | ⟨-, hfront⟩
    · exact (length_bytes _ _ _).le
    · rw [← length_bytes block offset (endpos - offset)]
      exact hfront.length_le
  have hsize : t.size n = s.size n := size_congr (congrFun hquiet.sin_eq n)
  refine (ioOut_keeps (h.grows (hquiet.grows h.free)) (by omega)).mono fun q u hq => ?_
  obtain ⟨rfl, rfl⟩ := hq
  exact ⟨hquiet, hr⟩

theorem ioParts_read_across (h : Maps s n L) (halign : offset % sfsBlksize ≠ 0)
    (htwo : endpos / sfsBlksize - offset / sfsBlksize = 1) (hlt : offset < endpos) (hend : endpos ≤ s.size n)
    (hcap : endpos ≤ L.length * sfsBlksize) :
    Triple Never (ioParts n buf offset endpos false) s fun r t =>
      Quiet s t ∧ ReadsBytes (s.fileBytes L) offset endpos r := by
  obtain ⟨hfirst, hnext⟩ := parts_across htwo
  have hfront := bytes_prefix (s.fileBytes L) offset (Nat.le_of_add_right_le hfirst.le)
  have hmod : offset % sfsBlksize < sfsBlksize := Nat.mod_lt _ (by decide)
  rw [ioParts_across halign htwo]
  refine (ioPart_read h (index_lt hlt hcap) hmod (by omega)).bind fun r t hr => ?_
  obtain ⟨hquiet, hread | hfail⟩ := hr
  · rw [start_of_offset] at hread
    subst hread
    rw [if_neg (not_not.2 rfl)]
    have hmaps := h.grows (hquiet.grows h.free)
    have hbytes : t.fileBytes L = s.fileBytes L := fileBytes_congr fun b _ => congrFun hquiet.disk b
    by_cases hrest : endpos % sfsBlksize = 0
    · rw [if_neg (not_not.2 hrest), triple_bind]
      refine ioOut_read h hlt hend hquiet (r := (0, _)) (Or.inl ?_)
      rw [← hfirst, hrest, Nat.add_zero, List.append_nil]
    · rw [if_pos hrest]
      have hmod' : 0 + endpos % sfsBlksize ≤ sfsBlksize := by
        rw [Nat.zero_add]
        exact (Nat.mod_lt _ (by decide)).le
      refine (ioPart_read hmaps (index_next_lt htwo hrest hcap) (by decide) hmod').bind fun q u hq => ?_
      obtain ⟨hquiet', hread' | ⟨hret, hnil⟩⟩ := hq
      · refine ioOut_read h hlt hend (hquiet.trans hquiet') (r := (q.1, _)) (Or.inl ?_)
        rw [hread', hbytes, Nat.add_zero, ← hnext, ← hfirst, bytes_append]
      · refine ioOut_read h hlt hend (hquiet.trans hquiet') (r := (q.1, _)) (Or.inr ⟨hret, ?_⟩)
        rw [hnil, List.append_nil]
        exact hfront
  · rw [if_pos (hfail.1.trans_ne eInval_ne_zero)]
    exact ioOut_read h hlt hend hquiet (ReadsBytes.of_empty hfail)

theorem ioParts_read (h : Maps s n L) (hwhole : NoWholeBlock offset endpos) (hlt : offset < endpos)
    (hend : endpos ≤ s.size n) (hcap : s.size n ≤ L.length * sfsBlksize) :
    Triple Never (ioParts n buf offset endpos false) s fun r t =>
      Quiet s t ∧ ReadsBytes (s.fileBytes L) offset endpos r := by
  have hstart := start_of_offset offset
  have hindex := index_lt hlt (hend.trans hcap)
  rcases hwhole.cases hlt with ⟨halign, hone, hrest⟩ | ⟨halign, hone⟩ | ⟨halign, htwo⟩
  · rw [ioParts_aligned halign hone hrest]
    have hfits : 0 + endpos % sfsBlksize ≤ sfsBlksize := by
      rw [Nat.zero_add]
      exact (Nat.mod_lt _ (by decide)).le
    refine (ioPart_read h hindex (by decide) hfits).bind fun r t hr => ?_
    obtain ⟨hquiet, hread | hfail⟩ := hr
    · rw [halign] at hstart
      rw [hstart, part_aligned halign hone hlt] at hread
      exact ioOut_read h hlt hend hquiet (Or.inl hread)
    · exact ioOut_read h hlt hend hquiet (ReadsBytes.of_empty hfail)
  · rw [ioParts_inside halign hone]
    refine (ioPart_read h hindex (Nat.mod_lt _ (by decide)) (part_inside hone hlt)).bind fun r t hr => ?_
    obtain ⟨hquiet, hread | hfail⟩ := hr
    · rw [hstart] at hread
      exact ioOut_read h hlt hend hquiet (Or.inl hread)
    · exact ioOut_read h hlt hend hquiet (ReadsBytes.of_empty hfail)
  · exact ioParts_read_across h halign htwo hlt hend (hend.trans hcap)

/-! ### Writes -/

/-- What a write of the buffer at an offset does to a file, when it returns `r`: it has stored the front of the buffer
that it says, and all of it unless it fails. -/
structure Stored (s : Sfs) (n : Nat) (L : List Nat) (offset : Nat) (buf : List UInt8) (r : Int × List UInt8) (t : Sfs)
    (L' : List Nat) : Prop where
  touches : Touches s n L t L'
  bytes : t.fileBytes L' = (s.fileBytes L).put offset r.2
  size : t.size n = max (s.size n) (offset + r.2.length)
  cap : t.size n ≤ L'.length * sfsBlksize
  front : r.2 <+: buf
  all : r.1 = 0 → r.2 = buf ∧ L'.length = max L.length (blocksOf (offset + buf.length))

theorem ioOut_write {r : Int × List UInt8} (hcap : s.size n ≤ L.length * sfsBlksize) (hoffset : offset ≤ s.size n)
    (h : Wrote s n L offset r t L') (hfront : r.2 <+: buf)
    (hall : r.1 = 0 → r.2 = buf ∧ L'.length = max L.length (blocksOf (offset + buf.length))) :
    Triple Never (ioOut n offset r.1 r.2) t fun q u => Stored s n L offset buf q u L' := by
  obtain ⟨sin, hsin, -⟩ := h.touches.maps.inode
  have hsize := h.size
  have hgrows := Nat.mul_le_mul_right sfsBlksize h.grows
  have hmax : max (s.size n) (offset + r.2.length) ≤ L'.length * sfsBlksize := by
    refine max_le (hcap.trans hgrows) ?_
    by_cases hnil : r.2 = []
    · rw [hnil, List.length_nil]
      exact hoffset.trans (hcap.trans hgrows)
    · exact h.inside hnil
  unfold ioOut
  rw [triple_bind, triple_derefSin_of hsin, triple_bind]
  rw [size_of_sin hsin] at hsize
  refine triple_ite (fun hlt => ?_) fun hle => ?_
  · rw [triple_modifyDin_of hsin, triple_pure]
    have heq : max (s.size n) (offset + r.2.length) = offset + r.2.length := max_eq_right (by omega)
    refine ⟨h.touches.putSin hsin rfl, h.bytes, (size_of_sin (putSin_sin _ _ _)).trans heq.symm, ?_, hfront, hall⟩
    rw [size_of_sin (putSin_sin _ _ _)]
    exact heq.ge.trans hmax
  · rw [triple_pure, triple_pure]
    have hsame : t.size n = max (s.size n) (offset + r.2.length) := by
      rw [size_of_sin hsin, hsize, max_eq_left (by omega)]
    exact ⟨h.touches, h.bytes, hsame, hsame ▸ hmax, hfront, hall⟩

theorem blocksOf_aligned (hone : endpos / sfsBlksize - offset / sfsBlksize = 0) (hlt : offset < endpos)
    (hrest : endpos % sfsBlksize ≠ 0) : blocksOf endpos = offset / sfsBlksize + 1 := by
  unfold blocksOf sfsBlksize at *
  omega

theorem rest_inside (hone : endpos / sfsBlksize - offset / sfsBlksize = 0) (hlt : offset < endpos) : endpos % sfsBlksize ≠ 0 := by
  unfold sfsBlksize at *
  omega

theorem blocksOf_across (htwo : endpos / sfsBlksize - offset / sfsBlksize = 1) :
    blocksOf endpos = offset / sfsBlksize + if endpos % sfsBlksize = 0 then 1 else 2 := by
  unfold blocksOf sfsBlksize at *
  split
  · omega
  · omega

theorem ioParts_write_across (h : Maps s n L) (hcap : s.size n ≤ L.length * sfsBlksize) (hoffset : offset ≤ s.size n)
    (halign : offset % sfsBlksize ≠ 0) (htwo : endpos / sfsBlksize - offset / sfsBlksize = 1)
    (hend : endpos = offset + buf.length) (hlt : offset < endpos)
    (hmax : endpos ≤ (ndirect + sfsBlkNentry) * sfsBlksize) :
    Triple Never (ioParts n buf offset endpos true) s fun r t => ∃ L', Stored s n L offset buf r t L' := by
  obtain ⟨hfirst, hnext⟩ := parts_across htwo
  have hblocks := blocksOf_across htwo
  have hmod : offset % sfsBlksize < sfsBlksize := Nat.mod_lt _ (by decide)
  have hle : offset / sfsBlksize ≤ L.length :=
    Nat.lt_succ_iff.1 (index_lt (Nat.lt_succ_self offset) (by rw [Nat.succ_mul]; unfold sfsBlksize at *; omega))
  rw [ioParts_across halign htwo]
  refine (ioPart_write h hle (index_lt hlt hmax) hmod (by omega) (by omega)).bind fun r t hr => ?_
  obtain ⟨L', hwrote, ⟨hfail, hnil⟩ | ⟨rfl, hlength⟩⟩ := hr
  · rw [start_of_offset] at hwrote
    rw [if_pos hfail]
    refine (ioOut_write hcap hoffset hwrote (hnil ▸ List.nil_prefix) fun hzero => absurd hzero hfail).mono
      fun q u hq => ⟨L', hq⟩
  rw [start_of_offset] at hwrote
  rw [if_neg (not_not.2 rfl)]
  have hlen : (buf.take (sfsBlksize - offset % sfsBlksize)).length = sfsBlksize - offset % sfsBlksize := by
    rw [List.length_take]
    omega
  have hgrown : offset / sfsBlksize + 1 ≤ L'.length := by
    rw [hlength]
    exact le_max_right _ _
  by_cases hrest : endpos % sfsBlksize = 0
  · have hall : buf.take (sfsBlksize - offset % sfsBlksize) = buf := List.take_of_length_le (by omega)
    rw [if_neg (not_not.2 hrest), triple_bind, triple_pure]
    dsimp only
    rw [List.append_nil]
    refine (ioOut_write hcap hoffset hwrote (List.take_prefix _ _) fun _ => ⟨hall, ?_⟩).mono fun q u hq => ⟨L', hq⟩
    rw [← hend, hblocks, if_pos hrest, hlength]
  · rw [if_pos hrest]
    have hmod' : 0 + endpos % sfsBlksize ≤ sfsBlksize := by
      rw [Nat.zero_add]
      exact (Nat.mod_lt _ (by decide)).le
    have hdrop : (buf.drop (buf.take (sfsBlksize - offset % sfsBlksize)).length).length = endpos % sfsBlksize := by
      rw [hlen, List.length_drop]
      omega
    refine (ioPart_write hwrote.touches.maps hgrown (index_next_lt htwo hrest hmax) (by decide) hmod' hdrop.ge).bind
      fun q u hq => ?_
    obtain ⟨L'', hwrote', hq⟩ := hq
    rw [Nat.add_zero, ← hnext, ← hlen] at hwrote'
    have hboth := hwrote.trans (r := (0, _)) hwrote'
    rcases hq with ⟨hfail, hnil⟩ | ⟨rfl, hlength'⟩
    · refine (ioOut_write hcap hoffset hboth ?_ fun hzero => absurd hzero hfail).mono fun q u hq => ⟨L'', hq⟩
      dsimp only
      rw [hnil, List.append_nil]
      exact List.take_prefix _ _
    · have hall : buf.take (sfsBlksize - offset % sfsBlksize) ++
          (buf.drop (buf.take (sfsBlksize - offset % sfsBlksize)).length).take (endpos % sfsBlksize) = buf := by
        rw [List.take_of_length_le hdrop.le, hlen, List.take_append_drop]
      refine (ioOut_write hcap hoffset hboth ?_ fun _ => ⟨hall, ?_⟩).mono fun q u hq => ⟨L'', hq⟩
      · exact hall.symm ▸ List.prefix_refl buf
      · rw [← hend, hblocks, if_neg hrest, hlength', hlength]
        omega

theorem ioParts_write (h : Maps s n L) (hcap : s.size n ≤ L.length * sfsBlksize) (hoffset : offset ≤ s.size n)
    (hwhole : NoWholeBlock offset endpos) (hend : endpos = offset + buf.length) (hlt : offset < endpos)
    (hmax : endpos ≤ (ndirect + sfsBlkNentry) * sfsBlksize) :
    Triple Never (ioParts n buf offset endpos true) s fun r t => ∃ L', Stored s n L offset buf r t L' := by
  have hstart := start_of_offset offset
  have hle : offset / sfsBlksize ≤ L.length :=
    Nat.lt_succ_iff.1 (index_lt (Nat.lt_succ_self offset) (by rw [Nat.succ_mul]; unfold sfsBlksize at *; omega))
  -- one part is the whole request
  have hpart : ∀ {off len : Nat}, offset / sfsBlksize * sfsBlksize + off = offset → off < sfsBlksize →
      off + len ≤ sfsBlksize → len = buf.length → blocksOf endpos = offset / sfsBlksize + 1 →
      Triple Never (ioPart n buf (offset / sfsBlksize) off len true >>= fun r => ioOut n offset r.1 r.2) s
        fun r t => ∃ L', Stored s n L offset buf r t L' := by
    intro off len hplace hoff hfits hlen hblocks
    refine (ioPart_write h hle (index_lt hlt hmax) hoff hfits hlen.le).bind fun r t hr => ?_
    obtain ⟨L', hwrote, ⟨hfail, hnil⟩ | ⟨rfl, hlength⟩⟩ := hr
    · rw [hplace] at hwrote
      exact (ioOut_write hcap hoffset hwrote (hnil ▸ List.nil_prefix) fun hzero => absurd hzero hfail).mono
        fun q u hq => ⟨L', hq⟩
    · rw [hplace] at hwrote
      refine (ioOut_write hcap hoffset hwrote (List.take_prefix _ _) fun _ =>
        ⟨List.take_of_length_le hlen.ge, ?_⟩).mono fun q u hq => ⟨L', hq⟩
      rw [← hend, hblocks, hlength]
  rcases hwhole.cases hlt with ⟨halign, hone, hrest⟩ | ⟨halign, hone⟩ | ⟨halign, htwo⟩
  · rw [ioParts_aligned halign hone hrest]
    have hlen := part_aligned halign hone hlt
    rw [halign] at hstart
    exact hpart hstart (by decide) (by rw [Nat.zero_add]; exact (Nat.mod_lt _ (by decide)).le) (by omega)
      (blocksOf_aligned hone hlt hrest)
  · rw [ioParts_inside halign hone]
    exact hpart hstart (Nat.mod_lt _ (by decide)) (part_inside hone hlt) (by omega)
      (blocksOf_aligned hone hlt (rest_inside hone hlt))
  · exact ioParts_write_across h hcap hoffset halign htwo hend hlt hmax

/-! ## Truncation -/

/-- The bytes of the first blocks, and zeros behind them. -/
def cut (block : Block) (count : Nat) : Block := fun p => if p / sfsBlksize < count then block p else 0

theorem cut_fileBytes {count : Nat} (h : L.length ≤ count) : cut (s.fileBytes L) count = s.fileBytes L := by
  funext p
  unfold cut Sfs.fileBytes
  by_cases hlt : p / sfsBlksize < L.length
  · rw [if_pos (hlt.trans_le h)]
  · rw [if_neg hlt, ite_self]

theorem cut_cut (block : Block) {count k : Nat} (h : k ≤ count) : cut (cut block count) k = cut block k := by
  funext p
  unfold cut
  by_cases hlt : p / sfsBlksize < k
  · rw [if_pos hlt, if_pos hlt, if_pos (hlt.trans_le h)]
  · rw [if_neg hlt, if_neg hlt]

/-- Blocks of zeros are appended; a failure leaves some of them. -/
theorem growLoop_spec (rounds : Nat) (h : Maps s n L) (hmax : L.length + rounds ≤ ndirect + sfsBlkNentry) :
    Triple Never (growLoop n rounds L.length) s fun ret t => ∃ L', Touches s n L t L' ∧ t.size n = s.size n ∧
      t.fileBytes L' = s.fileBytes L ∧ (ret = 0 → L'.length = L.length + rounds) := by
  induction rounds generalizing s L with
  | zero => exact ⟨L, Touches.refl h, rfl, rfl, fun _ => rfl⟩
  | succ rounds ih =>
      unfold growLoop
      refine (sfsBmapLoad_touches h le_rfl (by omega)).bind fun r t hr => ?_
      obtain ⟨ret, ino⟩ := r
      obtain ⟨L', htouches, hsize, hbytes, ⟨hfail, rfl⟩ | ⟨hzero, -, hlength⟩⟩ := hr
      · dsimp only at hfail ⊢
        rw [if_pos hfail]
        exact ⟨L', htouches, hsize, hbytes, fun hzero => absurd hzero hfail⟩
      · dsimp only at hzero ⊢
        have hnext : L'.length = L.length + 1 := by omega
        rw [if_neg (not_not.2 hzero), ← hnext]
        refine (ih htouches.maps (by omega)).mono fun ret u hu => ?_
        obtain ⟨L'', htouches', hsize', hbytes', hlength'⟩ := hu
        refine ⟨L'', htouches.trans htouches', hsize'.trans hsize, hbytes'.trans hbytes, fun hret => ?_⟩
        have hcount := hlength' hret
        omega

theorem sfsBmapTruncate_touches (h : Maps s n (K ++ [b])) :
    Triple Never (sfsBmapTruncateNolock n) s fun r t => ∃ L', Touches s n (K ++ [b]) t L' ∧ t.size n = s.size n ∧
      t.fileBytes L' = cut (s.fileBytes (K ++ [b])) L'.length ∧ (r ≠ 0 ∧ L' = K ++ [b] ∨ r = 0 ∧ L' = K) := by
  obtain ⟨sin, hsin, hlist⟩ := h.inode
  have hb : b ∈ K ++ [b] := List.mem_append_right K List.mem_cons_self
  have hkept : ∀ {t : Sfs}, Shrunk s n sin b t → ∀ c ∈ K ++ [b], t.disk c = s.disk c := by
    intro t ht c hc
    have hused := hlist.used c hc
    refine (ht.kept c hused).2 fun heq => ?_
    exact (hlist.indirect (heq ▸ hused.1.ne')).2 (heq ▸ hc)
  refine ((sfsBmapTruncate_spec h).and_results (sfsBmapTruncate_shrunk h.free hsin hlist)).mono fun r t hr => ?_
  obtain ⟨⟨hfail, hmaps⟩ | ⟨hzero, hmaps⟩, hshrunk⟩ := hr
  · obtain ⟨htouches, hsize⟩ := hshrunk.touches hsin hmaps (fun _ hc => hc) hb
    refine ⟨K ++ [b], htouches, hsize, ?_, Or.inl ⟨hfail, rfl⟩⟩
    rw [cut_fileBytes le_rfl]
    exact fileBytes_congr (hkept hshrunk)
  · obtain ⟨htouches, hsize⟩ := hshrunk.touches hsin hmaps (fun c hc => List.mem_append_left _ hc) hb
    refine ⟨K, htouches, hsize, ?_, Or.inr ⟨hzero, rfl⟩⟩
    exact fileBytes_dropLast fun c hc => hkept hshrunk c (List.mem_append_left _ hc)

/-- Blocks are taken away from the end; a failure leaves some of them. -/
theorem shrinkLoop_spec (rounds : Nat) (h : Maps s n L) (hle : rounds ≤ L.length) :
    Triple Never (shrinkLoop n rounds) s fun ret t => ∃ L', Touches s n L t L' ∧ t.size n = s.size n ∧
      L'.length ≤ L.length ∧ t.fileBytes L' = cut (s.fileBytes L) L'.length ∧
      (ret = 0 → L'.length = L.length - rounds) := by
  induction rounds generalizing s L with
  | zero => exact ⟨L, Touches.refl h, rfl, le_rfl, (cut_fileBytes le_rfl).symm, fun _ => rfl⟩
  | succ rounds ih =>
      have hne : L ≠ [] := by
        rintro rfl
        exact absurd hle (Nat.not_succ_le_zero rounds)
      obtain ⟨K, b, hL⟩ := (List.eq_nil_or_concat L).resolve_left hne
      rw [List.concat_eq_append] at hL
      subst hL
      rw [List.length_append, List.length_singleton] at hle ⊢
      unfold shrinkLoop
      refine (sfsBmapTruncate_touches h).bind fun r t hr => ?_
      obtain ⟨L', htouches, hsize, hbytes, ⟨hfail, rfl⟩ | ⟨rfl, rfl⟩⟩ := hr
      · rw [if_pos hfail]
        refine ⟨K ++ [b], htouches, hsize, ?_, hbytes, fun hzero => absurd hzero hfail⟩
        rw [List.length_append, List.length_singleton]
      · rw [if_neg (not_not.2 rfl)]
        refine (ih htouches.maps (by omega)).mono fun ret u hu => ?_
        obtain ⟨L'', htouches', hsize', hle', hbytes', hlength'⟩ := hu
        refine ⟨L'', htouches.trans htouches', hsize'.trans hsize, by omega, ?_, fun hret => ?_⟩
        · rw [hbytes', hbytes, cut_cut _ hle']
        · have hcount := hlength' hret
          omega

/-- A truncation that succeeds cuts the bytes after the last block that is still needed. -/
theorem sfsTruncfile_spec (len : Int) (h : Maps s n L) (hagree : blocksOf (s.size n) = L.length)
    (hmax : len ≤ ((ndirect + sfsBlkNentry) * sfsBlksize : Nat)) :
    Triple Never (sfsTruncfile n len) s fun ret t => ∃ L', Touches s n L t L' ∧ (ret = 0 → 0 ≤ len ∧
      t.size n = len.toNat ∧ L'.length = blocksOf len.toNat ∧ t.fileBytes L' = cut (s.fileBytes L) L'.length) := by
  obtain ⟨sin, hsin, hlist⟩ := h.inode
  have hsize := size_of_sin hsin
  have hblocks := hlist.blocks
  have hlast : blocksOf len.toNat ≤ ndirect + sfsBlkNentry := by
    unfold blocksOf sfsBlksize at *
    omega
  unfold sfsTruncfile
  refine triple_ite (fun _ => ⟨L, Touches.refl h, fun hzero => absurd hzero eInval_ne_zero⟩) fun hvalid => ?_
  have hnonneg : 0 ≤ len := Int.not_lt.1 (not_or.1 hvalid).1
  rw [triple_bind, triple_derefSin_of hsin]
  refine triple_ite (fun hsame => ?_) fun _ => ?_
  · have hcount : blocksOf len.toNat = sin.din.blocks := by rw [hblocks, ← hagree, hsize, hsame]
    rw [triple_bind, triple_assert_of hcount]
    exact ⟨L, Touches.refl h, fun _ => ⟨hnonneg, hsize.trans hsame, by omega, (cut_fileBytes le_rfl).symm⟩⟩
  -- the two loops
  have hloop : Triple Never (if sin.din.blocks < blocksOf len.toNat
      then growLoop n (blocksOf len.toNat - sin.din.blocks) sin.din.blocks
      else shrinkLoop n (sin.din.blocks - blocksOf len.toNat)) s fun ret t => ∃ L', Touches s n L t L' ∧
        (ret = 0 → L'.length = blocksOf len.toNat ∧ t.fileBytes L' = cut (s.fileBytes L) L'.length) := by
    rw [hblocks]
    refine triple_ite (fun hlt => ?_) fun hnot => ?_
    · refine (growLoop_spec _ h (by omega)).mono fun ret t ht => ?_
      obtain ⟨L', htouches, -, hbytes, hlength⟩ := ht
      refine ⟨L', htouches, fun hret => ?_⟩
      have hcount := hlength hret
      refine ⟨by omega, ?_⟩
      rw [hbytes, cut_fileBytes (by omega)]
    · refine (shrinkLoop_spec _ h (by omega)).mono fun ret t ht => ?_
      obtain ⟨L', htouches, -, -, hbytes, hlength⟩ := ht
      refine ⟨L', htouches, fun hret => ⟨?_, hbytes⟩⟩
      have hcount := hlength hret
      omega
  refine hloop.bind fun ret t ht => ?_
  obtain ⟨L', htouches, hdone⟩ := ht
  refine triple_ite (fun hfail => ⟨L', htouches, fun hzero => absurd hzero hfail⟩) fun hzero => ?_
  obtain ⟨hlength, hbytes⟩ := hdone (not_not.1 hzero)
  obtain ⟨sin', hsin', hlist'⟩ := htouches.maps.inode
  have hcount : sin'.din.blocks = blocksOf len.toNat := hlist'.blocks.trans hlength
  rw [triple_bind, triple_derefSin_of hsin', triple_bind, triple_assert_of hcount, triple_bind,
    triple_modifyDin_of hsin', triple_pure]
  exact ⟨L', htouches.putSin hsin' rfl, fun _ => ⟨hnonneg, size_of_sin (putSin_sin _ _ _), hlength, hbytes⟩⟩

end Vfs
end TriOS
