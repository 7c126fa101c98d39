import TriOS.Fs.BlockMap

/-!
# SfsFrame — what the block map of one inode leaves alone

The block map is in the inode and in its block of entries. So an operation on it keeps every other inode in memory,
and every block in use but the block of entries. A block that is appended was not in use, and has been cleared.
-/

namespace TriOS
namespace Vfs

open Hoare

variable {s t u : Sfs} {n ino ent index b k : Nat} {sin : Sin} {L K : List Nat}

/-! ## Appending a block -/

/-- The inode `n`, which was `sin`, has the new block `ino`. -/
structure Grown (s : Sfs) (n : Nat) (sin : Sin) (ino : Nat) (t : Sfs) : Prop where
  others : ∀ m, m ≠ n → t.sin m = s.sin m
  inode : ∃ sin', t.sin n = some sin' ∧ sin'.din.size = sin.din.size ∧ sin'.din.type = sin.din.type ∧
    (sin'.din.indirect = sin.din.indirect ∨ ¬ Used s sin'.din.indirect)
  kept : ∀ b, Used s b → Used t b ∧ (b ≠ sin.din.indirect → t.disk b = s.disk b)
  fresh : ¬ Used s ino
  clear : t.disk ino = fun _ => 0

theorem bmapCleanup_ret {ret : Int} : Triple AnyError (bmapCleanup k ent ret) s fun r _ => r.1 = ret := by
  unfold bmapCleanup
  rw [triple_bind]
  exact triple_anyError.mono fun _ _ _ => rfl

/-- The new block of an entry has been cleared. -/
theorem bmapNewBlock_clear (ht : FreeOk t) (hent : Used t ent) (hindex : index < sfsBlkNentry) :
    Triple AnyError (bmapNewBlock k ent index) t fun r u => r.1 = 0 → u.disk r.2.2 = fun _ => 0 := by
  have hcleanup : ∀ {v : Sfs} {ret : Int}, ret ≠ 0 → Triple AnyError (bmapCleanup k ent ret) v fun r u =>
      r.1 = 0 → u.disk r.2.2 = fun _ => 0 :=
    fun hret => bmapCleanup_ret.mono fun _ _ hr hzero => absurd (hr.symm.trans hzero) hret
  unfold bmapNewBlock
  refine ((sfsBlockAlloc_spec ht).mono_error fun _ _ => trivial).bind fun r u hu => ?_
  obtain ⟨ret, ino⟩ := r
  obtain ⟨hgrows, hr⟩ := hu
  dsimp only at hr ⊢
  rcases hr with hfail | ⟨rfl, hfresh, -, hclear⟩
  · rw [if_pos hfail]
    exact hcleanup hfail
  rw [if_neg (not_not.2 rfl)]
  have hent' := (hgrows.used ent hent).1
  have hne : ino ≠ ent := fun heq => hfresh (heq ▸ hent)
  have hfits : index * 4 + (leBytes 4 ino).length ≤ sfsBlksize := by
    rw [length_leBytes]
    exact (entry_bounds hindex).2
  refine ((sfsWbuf_spec hgrows.free hent'.1 hent'.2.1 (entry_bounds hindex).1 hfits).mono_error fun _ _ => trivial).bind
    fun ret v hv => ?_
  rcases hv with ⟨rfl, requests, rfl⟩ | ⟨rfl, requests, rfl⟩
  · rw [if_neg (not_not.2 rfl)]
    exact fun _ => (Function.update_of_ne hne _ _).trans hclear
  · rw [if_pos eInval_ne_zero]
    exact triple_anyError.bind fun _ _ _ => hcleanup eInval_ne_zero

theorem bmapGetSub_clear (hs : FreeOk s) (h : ListOf s sin.din L) (hlen : ¬ L.length < ndirect)
    (hmax : L.length < ndirect + sfsBlkNentry) :
    Triple AnyError (sfsBmapGetSubNolock sin.din.indirect (L.length - ndirect) true) s fun r u =>
      r.1 = 0 → u.disk r.2.2 = fun _ => 0 := by
  have hentry : L.length - ndirect < sfsBlkNentry := by omega
  have hbounds := entry_bounds hentry
  unfold sfsBmapGetSubNolock
  rw [triple_bind, triple_assert_of hentry]
  refine triple_ite (fun hne => ?_) fun _ => ?_
  · have hent := (h.indirect hne).1
    have hslot := h.slot_length hmax
    rw [blockNo_entry hs hent hlen] at hslot
    refine ((sfsRbuf_spec hs hent.1 hent.2.1 hbounds.1 hbounds.2).mono_error fun _ _ => trivial).bind fun r t hr => ?_
    obtain ⟨ret, bytes⟩ := r
    obtain ⟨hquiet, ⟨hread, -⟩ | hfail⟩ := hr
    · obtain ⟨rfl, rfl⟩ := Prod.mk.inj hread
      dsimp only
      rw [if_neg (not_not.2 rfl), if_neg (by simp [hslot])]
      have hgrows := hquiet.grows hs
      exact bmapNewBlock_clear hgrows.free (hgrows.used _ hent).1 hentry
    · have hret : ret ≠ 0 := hfail.1.trans_ne eInval_ne_zero
      dsimp only
      rw [if_pos hret]
      exact fun hzero => absurd hzero hret
  · rw [if_neg (by simp)]
    refine ((sfsBlockAlloc_spec hs).mono_error fun _ _ => trivial).bind fun r t hr => ?_
    obtain ⟨ret, ent⟩ := r
    obtain ⟨hgrows, hfail | ⟨hret, -, hused, -⟩⟩ := hr
    · dsimp only at hfail ⊢
      rw [if_pos hfail]
      exact fun hzero => absurd hzero hfail
    · dsimp only at hret hused ⊢
      rw [if_neg (not_not.2 hret)]
      exact bmapNewBlock_clear hgrows.free hused hentry

/-- The new inode, when nothing but its slots has changed. -/
theorem Grown.putSin {sin' : Sin} (hsin : t.sin n = some sin') (h : Grown s n sin ino t) {sin'' : Sin}
    (hsize : sin''.din.size = sin'.din.size) (htype : sin''.din.type = sin'.din.type)
    (hindirect : sin''.din.indirect = sin'.din.indirect) : Grown s n sin ino (t.putSin n sin'') := by
  obtain ⟨sin₁, hsin₁, hsize₁, htype₁, hindirect₁⟩ := h.inode
  cases hsin.symm.trans hsin₁
  refine ⟨fun m hm => ?_, ⟨sin'', putSin_sin _ _ _, hsize.trans hsize₁, htype.trans htype₁, ?_⟩, h.kept, h.fresh,
    h.clear⟩
  · exact (Function.update_of_ne hm _ _).trans (h.others m hm)
  · rw [hindirect]
    exact hindirect₁

theorem bmapGet_grown (hs : FreeOk s) (hsin : s.sin n = some sin) (h : ListOf s sin.din L)
    (hmax : L.length < ndirect + sfsBlkNentry) :
    Triple Never (sfsBmapGetNolock n L.length true) s fun r t =>
      (r.1 ≠ 0 ∧ Grows s t) ∨ r.1 = 0 ∧ Grown s n sin r.2 t := by
  unfold sfsBmapGetNolock
  rw [triple_bind, triple_derefSin_of hsin]
  refine triple_ite (fun hdirect => ?_) fun hdirect => ?_
  · have hslot := h.slot_length hmax
    rw [blockNo_direct hdirect] at hslot
    dsimp only
    rw [if_pos ⟨hslot, rfl⟩]
    refine (sfsBlockAlloc_spec hs).bind fun r t hr => ?_
    obtain ⟨ret, ino⟩ := r
    obtain ⟨hgrows, hfail | ⟨hret, hfresh, hused, hclear⟩⟩ := hr
    · dsimp only at hfail ⊢
      rw [if_pos hfail]
      exact Or.inl ⟨hfail, hgrows⟩
    · dsimp only at hret hfresh hused hclear ⊢
      have hsin' : t.sin n = some sin := by rw [hgrows.sin, hsin]
      rw [if_neg (not_not.2 hret), triple_bind, triple_modifyDin_of hsin']
      refine (bmapOut_spec (hgrows.free.putSin n _) hused).mono fun r u hr => ?_
      obtain ⟨rfl, rfl⟩ := hr
      have hgrown : Grown s n sin ino t := ⟨fun m _ => congrFun hgrows.sin m, ⟨sin, hsin', rfl, rfl, Or.inl rfl⟩,
        fun b hb => ⟨(hgrows.used b hb).1, fun _ => (hgrows.used b hb).2⟩, hfresh, hclear⟩
      exact Or.inr ⟨rfl, hgrown.putSin hsin' rfl rfl rfl⟩
  · have hentry : L.length - ndirect < sfsBlkNentry := by omega
    rw [if_pos hentry]
    refine ((bmapGetSub_append hs h hdirect hmax).and_results (bmapGetSub_clear hs h hdirect hmax)).bind
      fun r u hr => ?_
    obtain ⟨⟨hfail, hgrows⟩ | ⟨ent, ino, t, rfl, hgrows, hent, hnew, hlinked⟩, hclear⟩ := hr
    · obtain ⟨ret, ent, ino⟩ := r
      dsimp only at hfail ⊢
      rw [if_pos hfail]
      exact Or.inl ⟨hfail, hgrows⟩
    · have hsin' : u.sin n = some sin := by rw [hlinked.sin, hgrows.sin, hsin]
      have hfresh : ¬ Used s ino := fun hin => hlinked.fresh (hgrows.used ino hin).1
      have hkept : ∀ b, Used s b → Used u b ∧ (b ≠ sin.din.indirect → u.disk b = s.disk b) := by
        intro b hb
        obtain ⟨hbt, hdisk⟩ := hgrows.used b hb
        refine ⟨(hlinked.used b hbt).1, fun hne => ((hlinked.used b hbt).2 fun heq => ?_).trans hdisk⟩
        rcases hnew with heq' | ⟨-, hnot, -⟩
        · exact hne (heq.trans heq')
        · exact hnot (heq ▸ hb)
      have hgrown : Grown s n sin ino u := ⟨fun m _ => congrFun (hlinked.sin.trans hgrows.sin) m,
        ⟨sin, hsin', rfl, rfl, Or.inl rfl⟩, hkept, hfresh, hclear rfl⟩
      dsimp only
      rw [if_neg (not_not.2 rfl)]
      refine triple_ite (fun hne => ?_) fun heq => ?_
      · obtain ⟨hzero, hnot⟩ : sin.din.indirect = 0 ∧ ¬ Used s ent := by
          rcases hnew with heq | ⟨hzero, hnot, -⟩
          · exact absurd heq hne
          · exact ⟨hzero, hnot⟩
        rw [triple_bind, triple_assert_of hzero, triple_bind, triple_modifyDin_of hsin']
        refine (bmapOut_spec (hlinked.free.putSin n _) hlinked.new).mono fun r v hr => ?_
        obtain ⟨rfl, rfl⟩ := hr
        refine Or.inr ⟨rfl, ⟨fun m hm => ?_, ⟨_, putSin_sin _ _ _, rfl, rfl, Or.inr hnot⟩, hkept, hfresh, hclear rfl⟩⟩
        exact (Function.update_of_ne hm _ _).trans (hgrown.others m hm)
      · refine (bmapOut_spec hlinked.free hlinked.new).mono fun r v hr => ?_
        obtain ⟨rfl, rfl⟩ := hr
        exact Or.inr ⟨rfl, hgrown⟩

/-- What an append leaves alone. -/
theorem sfsBmapLoad_grown (hs : FreeOk s) (hsin : s.sin n = some sin) (h : ListOf s sin.din L)
    (hmax : L.length < ndirect + sfsBlkNentry) :
    Triple AnyError (sfsBmapLoadNolock n L.length) s fun r t =>
      (r.1 ≠ 0 ∧ Grows s t) ∨ r.1 = 0 ∧ Grown s n sin r.2 t := by
  have hblocks := h.blocks
  unfold sfsBmapLoadNolock
  rw [triple_bind, triple_derefSin_of hsin, triple_bind, triple_assert_of hblocks.ge]
  have hcreate : decide (L.length = sin.din.blocks) = true := decide_eq_true hblocks.symm
  rw [hcreate]
  refine ((bmapGet_grown hs hsin h hmax).mono_error fun _ _ => trivial).bind fun r t hr => ?_
  obtain ⟨ret, ino⟩ := r
  rcases hr with ⟨hfail, hgrows⟩ | ⟨hret, hgrown⟩
  · dsimp only at hfail ⊢
    rw [if_pos hfail]
    exact Or.inl ⟨hfail, hgrows⟩
  · dsimp only at hret hgrown ⊢
    obtain ⟨sin', hsin', -⟩ := hgrown.inode
    rw [if_neg (not_not.2 hret)]
    refine quiet_blockInuse.bind fun inuse u hu => ?_
    obtain ⟨rfl, -⟩ := hu
    rw [triple_bind, triple_sfsAssert]
    intro _
    rw [triple_bind, if_pos rfl, triple_modifyDin_of hsin', triple_pure]
    exact Or.inr ⟨rfl, hgrown.putSin hsin' rfl rfl rfl⟩

/-! ## Taking the last block away -/

/-- The inode `n`, which was `sin`, has lost the block `b`, or not. -/
structure Shrunk (s : Sfs) (n : Nat) (sin : Sin) (b : Nat) (t : Sfs) : Prop where
  others : ∀ m, m ≠ n → t.sin m = s.sin m
  inode : ∃ sin', t.sin n = some sin' ∧ sin'.din.size = sin.din.size ∧ sin'.din.type = sin.din.type ∧
    sin'.din.indirect = sin.din.indirect
  kept : ∀ c, Used s c → (c ≠ b → Used t c) ∧ (c ≠ sin.din.indirect → t.disk c = s.disk c)

theorem Grows.shrunk (h : Grows s t) (hsin : s.sin n = some sin) : Shrunk s n sin b t :=
  ⟨fun m _ => congrFun h.sin m, ⟨sin, (congrFun h.sin n).trans hsin, rfl, rfl, rfl⟩,
    fun c hc => ⟨fun _ => (h.used c hc).1, fun _ => (h.used c hc).2⟩⟩

theorem Shrunk.putSin {sin' : Sin} (hsin : t.sin n = some sin') (h : Shrunk s n sin b t) {sin'' : Sin}
    (hsize : sin''.din.size = sin'.din.size) (htype : sin''.din.type = sin'.din.type)
    (hindirect : sin''.din.indirect = sin'.din.indirect) : Shrunk s n sin b (t.putSin n sin'') := by
  obtain ⟨sin₁, hsin₁, hsize₁, htype₁, hindirect₁⟩ := h.inode
  cases hsin.symm.trans hsin₁
  exact ⟨fun m hm => (Function.update_of_ne hm _ _).trans (h.others m hm),
    ⟨sin'', putSin_sin _ _ _, hsize.trans hsize₁, htype.trans htype₁, hindirect.trans hindirect₁⟩, h.kept⟩

/-- `sfs_block_free` of the last block. -/
theorem blockFree_shrunk (hs : FreeOk s) (hsin : s.sin n = some sin) (hb : Used s b) :
    Triple Never (blockFree b) s fun _ t => Shrunk s n sin b t := by
  refine (blockFree_spec hs hb).mono fun _ t ht => ?_
  obtain ⟨hblocks, hsins, hdisk, -, hbits⟩ := ht
  refine ⟨fun m _ => congrFun hsins m, ⟨sin, (congrFun hsins n).trans hsin, rfl, rfl, rfl⟩,
    fun c hc => ⟨fun hne => ⟨hc.1, hblocks.symm ▸ hc.2.1, ?_⟩, fun _ => congrFun hdisk c⟩⟩
  rw [hbits, hc.2.2, decide_eq_false hne]
  rfl

theorem Shrunk.trans_used (h : Grows s t) (h' : Shrunk t n sin b u) : Shrunk s n sin b u := by
  refine ⟨fun m hm => (h'.others m hm).trans (congrFun h.sin m), h'.inode, fun c hc => ⟨fun hne => ?_, fun hne => ?_⟩⟩
  · exact (h'.kept c (h.used c hc).1).1 hne
  · exact ((h'.kept c (h.used c hc).1).2 hne).trans (h.used c hc).2

theorem sfsBmapFreeSub_shrunk (hs : FreeOk s) (hsin : s.sin n = some sin) (h : ListOf s sin.din (K ++ [b]))
    (hdirect : ¬ K.length < ndirect) :
    Triple AnyError (sfsBmapFreeSubNolock sin.din.indirect (K.length - ndirect)) s fun _ t => Shrunk s n sin b t := by
  have hmax := h.max
  rw [List.length_append, List.length_singleton] at hmax
  have hentry : K.length - ndirect < sfsBlkNentry := by omega
  have hbounds := entry_bounds hentry
  have hb : Used s b := h.used b (List.mem_append_right K List.mem_cons_self)
  have hslot := h.slots K.length (by omega)
  rw [getD_append_singleton, if_pos rfl] at hslot
  unfold sfsBmapFreeSubNolock
  refine quiet_blockInuse.bind fun inuse t ht => ?_
  obtain ⟨rfl, hne⟩ := ht
  have hent := (h.indirect hne).1
  rw [blockNo_entry hs hent hdirect] at hslot
  rw [triple_bind, triple_sfsAssert]
  intro _
  refine ((sfsRbuf_spec hs hent.1 hent.2.1 hbounds.1 hbounds.2).mono_error fun _ _ => trivial).bind fun r u hr => ?_
  obtain ⟨ret, bytes⟩ := r
  obtain ⟨⟨requests, rfl⟩, ⟨hread, -⟩ | hfail⟩ := hr
  · obtain ⟨rfl, rfl⟩ := Prod.mk.inj hread
    dsimp only
    rw [if_neg (not_not.2 rfl), hslot, if_pos hb.1.ne']
    have hs' := hs.requests requests
    have hfits : (K.length - ndirect) * 4 + (leBytes 4 0).length ≤ sfsBlksize := by
      rw [length_leBytes]
      exact hbounds.2
    refine ((sfsWbuf_spec hs' hent.1 hent.2.1 hbounds.1 hfits).mono_error fun _ _ => trivial).bind fun ret v hv => ?_
    rcases hv with ⟨rfl, requests', rfl⟩ | ⟨rfl, requests', rfl⟩
    · rw [if_neg (not_not.2 rfl)]
      have hs'' := (hs'.write sin.din.indirect ((t.disk sin.din.indirect).put ((K.length - ndirect) * 4) (leBytes 4 0))).requests
        requests'
      refine ((blockFree_shrunk hs'' hsin hb).mono_error fun _ _ => trivial).bind fun _ w hw => ?_
      -- only the block of entries has been written
      refine ⟨hw.others, hw.inode, fun c hc => ⟨(hw.kept c hc).1, fun hne' => ?_⟩⟩
      exact ((hw.kept c hc).2 hne').trans (Function.update_of_ne hne' _ _)
    · rw [if_pos eInval_ne_zero]
      exact ((hs.grows requests).trans (hs'.grows requests')).shrunk hsin
  · have hret : ret ≠ 0 := hfail.1.trans_ne eInval_ne_zero
    dsimp only
    rw [if_pos hret]
    exact (hs.grows requests).shrunk hsin

/-- What the removal of the last block leaves alone. -/
theorem sfsBmapTruncate_shrunk (hs : FreeOk s) (hsin : s.sin n = some sin) (h : ListOf s sin.din (K ++ [b])) :
    Triple AnyError (sfsBmapTruncateNolock n) s fun _ t => Shrunk s n sin b t := by
  have hblocks := h.blocks
  rw [List.length_append, List.length_singleton] at hblocks
  have hmax := h.max
  rw [List.length_append, List.length_singleton] at hmax
  have hb : Used s b := h.used b (List.mem_append_right K List.mem_cons_self)
  have hlast : sin.din.blocks - 1 = K.length := by omega
  have hcount : ∀ {t : Sfs}, Shrunk s n sin b t →
      Triple AnyError (modifyDin n (fun din => { din with blocks := din.blocks - 1 }) true) t fun _ u =>
        Shrunk s n sin b u := by
    intro t ht
    obtain ⟨sin', hsin', -⟩ := ht.inode
    rw [triple_modifyDin_of hsin']
    exact ht.putSin hsin' rfl rfl rfl
  unfold sfsBmapTruncateNolock
  rw [triple_bind, triple_derefSin_of hsin, triple_bind, triple_assert_of (by omega), hlast]
  unfold sfsBmapFreeNolock
  rw [triple_bind, triple_bind, triple_derefSin_of hsin]
  refine triple_ite (fun hdirect => ?_) fun hdirect => ?_
  · have hslot := h.slots K.length (by omega)
    rw [getD_append_singleton, if_pos rfl, blockNo_direct hdirect] at hslot
    rw [hslot, if_pos hb.1.ne']
    refine ((blockFree_shrunk hs hsin hb).mono_error fun _ _ => trivial).bind fun _ t ht => ?_
    obtain ⟨sin', hsin', -⟩ := ht.inode
    rw [triple_bind, triple_modifyDin_of hsin', triple_pure, if_neg (not_not.2 rfl)]
    refine (hcount ?_).bind fun _ _ hu => triple_pure.2 hu
    exact ht.putSin hsin' rfl rfl rfl
  · rw [if_pos (by omega : K.length - ndirect < sfsBlkNentry)]
    have hrest : ∀ {ret : Int} {t : Sfs}, Shrunk s n sin b t → Triple AnyError
        (if ret ≠ 0 then pure ret else do
          modifyDin n (fun din => { din with blocks := din.blocks - 1 }) true
          pure (0 : Int)) t fun _ u => Shrunk s n sin b u := by
      intro ret t ht
      refine triple_ite (fun _ => ht) fun _ => ?_
      exact (hcount ht).bind fun _ _ hu => triple_pure.2 hu
    refine triple_ite (fun _ => ?_) fun _ => hrest ((Quiet.refl.grows hs).shrunk hsin)
    exact (sfsBmapFreeSub_shrunk hs hsin h hdirect).mono fun _ _ ht => hrest ht

end Vfs
end TriOS
