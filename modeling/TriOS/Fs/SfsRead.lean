import TriOS.Fs.SfsKeeps

/-!
# SfsRead — reading changes nothing

What is on the disk, as functions of the state: the blocks of an inode and the entries of a directory. The code
that reads returns what they say, or an error, and changes only which requests are still to come.
-/

namespace TriOS
namespace Vfs

open Hoare

/-- The block of a number. -/
def Sfs.block (s : Sfs) (blkno : Nat) : Block := s.disk (blkno * sfsBlksize % 2 ^ 32 / sfsBlksize)

/-- The block with the logical number `i` of an inode, 0 if there is none. -/
def Sfs.blockNo (s : Sfs) (din : Din) (i : Nat) : Nat :=
  if i < ndirect then din.direct i
  else if din.indirect = 0 then 0
  else leNat ((s.block din.indirect).bytes ((i - ndirect) * 4) 4)

/-- An entry of a directory: the number of the inode and the name. -/
def Sfs.entry (s : Sfs) (din : Din) (i : Nat) : Nat × List UInt8 :=
  let bytes := (s.block (s.blockNo din i)).bytes 0 (4 + sfsMaxFnameLen + 1)
  (leNat (bytes.take 4), cString ((bytes.drop 4).take sfsMaxFnameLen))

/-- The first inode with a name among `len` entries from `i` on. -/
def Sfs.findName (s : Sfs) (din : Din) (name : List UInt8) (i len : Nat) : Option Nat :=
  (((List.range' i len).map (s.entry din)).find? fun e => e.1 ≠ 0 ∧ name = e.2).map Prod.fst

/-- Only requests have been made. -/
def Quiet (s t : Sfs) : Prop := ∃ requests, t = { s with requests := requests }

variable {s t u : Sfs} {n : Nat} {sin : Sin}

theorem Quiet.refl : Quiet s s := ⟨s.requests, rfl⟩

theorem Quiet.trans (h : Quiet s t) (h' : Quiet t u) : Quiet s u := by
  obtain ⟨r, rfl⟩ := h
  obtain ⟨r', rfl⟩ := h'
  exact ⟨r', rfl⟩

theorem Quiet.sin_eq (h : Quiet s t) : t.sin = s.sin := by
  obtain ⟨r, rfl⟩ := h
  rfl

theorem Quiet.disk (h : Quiet s t) : t.disk = s.disk := by
  obtain ⟨r, rfl⟩ := h
  rfl

theorem Quiet.blockNo (h : Quiet s t) (din : Din) (i : Nat) : t.blockNo din i = s.blockNo din i := by
  obtain ⟨r, rfl⟩ := h
  rfl

theorem Quiet.block (h : Quiet s t) (blkno : Nat) : t.block blkno = s.block blkno := by
  obtain ⟨r, rfl⟩ := h
  rfl

theorem Quiet.entry (h : Quiet s t) (din : Din) (i : Nat) : t.entry din i = s.entry din i := by
  obtain ⟨r, rfl⟩ := h
  rfl

theorem Quiet.findName (h : Quiet s t) (din : Din) (name : List UInt8) (i len : Nat) :
    t.findName din name i len = s.findName din name i len := by
  obtain ⟨r, rfl⟩ := h
  rfl

theorem Sfs.findName_succ (din : Din) (name : List UInt8) (i len : Nat) :
    s.findName din name i (len + 1) =
      if (s.entry din i).1 ≠ 0 ∧ name = (s.entry din i).2 then some (s.entry din i).1
      else s.findName din name (i + 1) len := by
  unfold Sfs.findName
  rw [List.range'_succ, List.map_cons, List.find?_cons]
  split_ifs with h
  · simp [h.1, ← h.2]
  · rw [decide_eq_false h]

/-! ## Blocks -/

theorem quiet_fails : Triple AnyError fails s fun _ t => Quiet s t := ⟨s.requests.tail, rfl⟩

theorem quiet_ask : Triple AnyError ask s fun _ t => Quiet s t := ⟨s.requests.tail, rfl⟩

theorem quiet_ofOutcome {α : Type} (x : Outcome α) : Triple AnyError (SfsM.ofOutcome x) s fun _ t => t = s := by
  cases x with
  | done a => exact rfl
  | panic => exact trivial
  | wrap => exact trivial
  | fuel => exact trivial

theorem quiet_blockInuse {ino : Nat} :
    Triple AnyError (blockInuse ino) s fun _ t => t = s ∧ ino ≠ 0 := by
  unfold blockInuse
  rw [triple_bind, triple_get]
  refine triple_ite (fun h => ?_) fun _ => trivial
  apply (quiet_ofOutcome _).bind
  intro free t ht
  exact ⟨ht, h.1⟩

/-- A read of a block. -/
theorem quiet_readBlock {buf : Block} {blkno : Nat} {check : Bool} :
    Triple AnyError (sfsRwblockNolock buf blkno false check) s fun r t => Quiet s t ∧
      (r.1 = 0 ∧ r.2 = s.block blkno ∨ r.1 = -eInval) := by
  unfold sfsRwblockNolock dopIo
  rw [triple_bind, triple_get, triple_bind, triple_sfsAssert]
  intro _
  apply quiet_fails.bind
  intro failed t ht
  refine triple_ite (fun _ => ⟨ht, Or.inr rfl⟩) fun _ => ?_
  rw [triple_bind, triple_get]
  exact ⟨ht, Or.inl ⟨rfl, congrFun ht.disk _⟩⟩

theorem quiet_sfsRbuf {len blkno offset : Nat} :
    Triple AnyError (sfsRbuf len blkno offset) s fun r t => Quiet s t ∧
      (r.1 = 0 ∧ r.2 = (s.block blkno).bytes offset len ∨ r.1 = -eInval ∧ r.2 = []) := by
  unfold sfsRbuf
  rw [triple_bind, triple_sfsAssert]
  intro _
  apply quiet_readBlock.bind
  rintro ⟨ret, block⟩ t ⟨ht, (⟨hret, hblock⟩ | hret)⟩
  · refine ⟨ht, Or.inl ⟨hret, ?_⟩⟩
    dsimp only at hret hblock ⊢
    rw [if_pos hret, hblock]
  · refine ⟨ht, Or.inr ⟨hret, ?_⟩⟩
    dsimp only at hret ⊢
    rw [if_neg]
    rw [hret]
    decide

theorem quiet_sfsRblock {nblks blkno : Nat} {buf : List UInt8} :
    Triple AnyError (sfsRwblock false nblks blkno buf) s fun r t => Quiet s t ∧ (r.1 = 0 ∨ r.1 = -eInval) := by
  induction nblks generalizing s blkno buf with
  | zero => exact ⟨Quiet.refl, Or.inl rfl⟩
  | succ nblks ih =>
      unfold sfsRwblock
      apply quiet_readBlock.bind
      rintro ⟨ret, block⟩ t ⟨ht, hret⟩
      refine triple_ite (fun hne => ⟨ht, Or.inr ?_⟩) fun _ => ?_
      · rcases hret with hret | hret
        · exact absurd hret.1 hne
        · exact hret
      · apply ih.bind
        rintro ⟨ret, rest⟩ u ⟨hu, hret⟩
        exact ⟨ht.trans hu, hret⟩

/-! ## The block map -/

theorem quiet_bmapOut {ino : Nat} :
    Triple AnyError (bmapOut ino) s fun r t => t = s ∧ r = (0, ino) := by
  unfold bmapOut
  refine triple_ite (fun _ => ⟨rfl, rfl⟩) fun _ => ?_
  apply quiet_blockInuse.bind
  rintro inuse t ⟨rfl, -⟩
  rw [triple_bind, triple_sfsAssert]
  intro _
  exact ⟨rfl, rfl⟩

theorem quiet_sfsBmapGetSubNolock {entp index : Nat} :
    Triple AnyError (sfsBmapGetSubNolock entp index false) s fun r t => Quiet s t ∧
      (r = (0, entp, if entp = 0 then 0 else leNat ((s.block entp).bytes (index * 4) 4)) ∨
        r.1 = -eInval) := by
  unfold sfsBmapGetSubNolock
  rw [triple_bind, triple_sfsAssert]
  intro _
  refine triple_ite (fun hent => ?_) fun hent => ?_
  · apply quiet_sfsRbuf.bind
    rintro ⟨ret, bytes⟩ t ⟨ht, (⟨hret, hbytes⟩ | ⟨hret, -⟩)⟩
    · dsimp only at hret hbytes ⊢
      rw [if_neg (by simp [hret]), if_pos (Or.inr rfl), if_neg hent, hbytes]
      exact ⟨ht, Or.inl rfl⟩
    · refine triple_ite (fun _ => ⟨ht, Or.inr hret⟩) fun hzero => ?_
      dsimp only at hret hzero
      exact absurd (by rw [hret]; decide) hzero
  · rw [if_pos rfl]
    have hzero : entp = 0 := not_not.1 hent
    subst hzero
    exact ⟨Quiet.refl, Or.inl rfl⟩

theorem quiet_sfsBmapGetNolock {index : Nat} (h : s.sin n = some sin) :
    Triple AnyError (sfsBmapGetNolock n index false) s fun r t => Quiet s t ∧
      (r = (0, s.blockNo sin.din index) ∨ r.1 = -eInval) := by
  unfold sfsBmapGetNolock Sfs.blockNo
  rw [triple_bind, triple_derefSin]
  intro sin' hsin'
  cases h.symm.trans hsin'
  refine triple_ite (fun hindex => ?_) fun hindex => triple_ite (fun _ => ?_) fun _ => trivial
  · rw [if_neg (by simp), if_pos hindex]
    exact quiet_bmapOut.mono fun r t ht => ⟨ht.1 ▸ Quiet.refl, Or.inl ht.2⟩
  · rw [if_neg hindex]
    apply quiet_sfsBmapGetSubNolock.bind
    rintro ⟨ret, ent, ino⟩ t ⟨ht, (hr | hr)⟩
    · cases hr
      dsimp only
      rw [if_neg (by simp), if_neg (by simp)]
      exact quiet_bmapOut.mono fun r u hu => ⟨hu.1 ▸ ht, Or.inl hu.2⟩
    · refine triple_ite (fun _ => ⟨ht, Or.inr hr⟩) fun hzero => ?_
      dsimp only at hr hzero
      exact absurd (by rw [hr]; decide) hzero

theorem quiet_sfsBmapLoadNolock {index : Nat} (h : s.sin n = some sin) (hindex : index < sin.din.blocks) :
    Triple AnyError (sfsBmapLoadNolock n index) s fun r t => Quiet s t ∧
      (r = (0, s.blockNo sin.din index) ∨ r.1 = -eInval) := by
  unfold sfsBmapLoadNolock
  rw [triple_bind, triple_derefSin]
  intro sin' hsin'
  cases h.symm.trans hsin'
  rw [triple_bind, triple_sfsAssert]
  intro _
  dsimp only
  rw [decide_eq_false (Nat.ne_of_lt hindex)]
  apply (quiet_sfsBmapGetNolock h).bind
  rintro ⟨ret, ino⟩ t ⟨ht, (hr | hr)⟩
  · cases hr
    dsimp only
    rw [if_neg (by simp)]
    apply quiet_blockInuse.bind
    rintro inuse u ⟨rfl, -⟩
    rw [triple_bind, triple_sfsAssert]
    intro _
    exact ⟨ht, Or.inl rfl⟩
  · refine triple_ite (fun _ => ⟨ht, Or.inr hr⟩) fun hzero => ?_
    dsimp only at hr hzero
    exact absurd (by rw [hr]; decide) hzero

/-! ## Directories -/

theorem quiet_sfsDirentReadNolock {slot : Nat} (h : s.sin n = some sin) :
    Triple AnyError (sfsDirentReadNolock n slot) s fun r t => Quiet s t ∧
      (r = (0, s.entry sin.din slot) ∨ r.1 = -eInval) := by
  unfold sfsDirentReadNolock
  rw [triple_bind, triple_derefSin]
  intro sin' hsin'
  cases h.symm.trans hsin'
  rw [triple_bind, triple_sfsAssert]
  rintro ⟨-, hslot⟩
  apply (quiet_sfsBmapLoadNolock h hslot).bind
  rintro ⟨ret, ino⟩ t ⟨ht, (hr | hr)⟩
  · cases hr
    dsimp only
    rw [if_neg (by simp)]
    apply quiet_blockInuse.bind
    rintro inuse u ⟨rfl, -⟩
    rw [triple_bind, triple_sfsAssert]
    intro _
    apply quiet_sfsRbuf.bind
    rintro ⟨ret, bytes⟩ v ⟨hv, (⟨hret, hbytes⟩ | ⟨hret, -⟩)⟩
    · dsimp only at hret hbytes ⊢
      rw [if_neg (by simp [hret])]
      refine ⟨ht.trans hv, Or.inl ?_⟩
      rw [hbytes, ht.block]
      rfl
    · refine triple_ite (fun _ => ⟨ht.trans hv, Or.inr hret⟩) fun hzero => ?_
      dsimp only at hret hzero
      exact absurd (by rw [hret]; decide) hzero
  · refine triple_ite (fun _ => ⟨ht, Or.inr hr⟩) fun hzero => ?_
    dsimp only at hr hzero
    exact absurd (by rw [hr]; decide) hzero

/-- What a search for a name may return. -/
def Found (name : Option Nat) (r : Except Int Nat) : Prop :=
  match r with
  | Except.ok ino => name = some ino
  | Except.error ret => ret = -eNoent ∧ name = none ∨ ret = -eInval ∨ ret = -eNoMem

theorem quiet_searchLoop {name : List UInt8} {rounds i : Nat} (h : s.sin n = some sin) :
    Triple AnyError (searchLoop n name rounds i) s fun r t => Quiet s t ∧
      Found (s.findName sin.din name i rounds) r := by
  induction rounds generalizing s i with
  | zero => exact ⟨Quiet.refl, Or.inl ⟨rfl, rfl⟩⟩
  | succ rounds ih =>
      unfold searchLoop
      apply (quiet_sfsDirentReadNolock h).bind
      rintro ⟨ret, ino, entry⟩ t ⟨ht, (hr | hr)⟩
      · have hrest : Triple AnyError (searchLoop n name rounds (i + 1)) t fun r u => Quiet s u ∧
            Found (s.findName sin.din name (i + 1) rounds) r := by
          apply (ih (ht.sin_eq ▸ h)).mono
          rintro r u ⟨hu, hr⟩
          exact ⟨ht.trans hu, ht.findName sin.din name (i + 1) rounds ▸ hr⟩
        obtain ⟨hret, hent⟩ := Prod.mk.inj hr
        subst hret
        dsimp only
        rw [if_neg (by simp)]
        rw [Sfs.findName_succ, ← hent]
        refine triple_ite (fun hzero => ?_) fun hzero => triple_ite (fun hname => ?_) fun hname => ?_
        · rw [if_neg fun h => h.1 hzero]
          exact hrest
        · rw [if_pos ⟨hzero, hname⟩]
          exact ⟨ht, rfl⟩
        · rw [if_neg fun h => hname h.2]
          exact hrest
      · refine triple_ite (fun _ => ⟨ht, Or.inr (Or.inl hr)⟩) fun hzero => ?_
        dsimp only at hr hzero
        exact absurd (by rw [hr]; decide) hzero

theorem quiet_sfsDirentSearchNolock {name : List UInt8} (h : s.sin n = some sin) :
    Triple AnyError (sfsDirentSearchNolock n name) s fun r t => Quiet s t ∧
      Found (s.findName sin.din name 0 sin.din.blocks) r := by
  unfold sfsDirentSearchNolock
  rw [triple_bind, triple_sfsAssert]
  intro _
  apply quiet_fails.bind
  intro failed t ht
  refine triple_ite (fun _ => ⟨ht, Or.inr (Or.inr rfl)⟩) fun _ => ?_
  rw [triple_bind, triple_derefSin]
  intro sin' hsin'
  have hsame : s.sin n = some sin' := ht.sin_eq ▸ hsin'
  cases h.symm.trans hsame
  apply (quiet_searchLoop hsin').mono
  rintro r u ⟨hu, hr⟩
  rw [ht.findName] at hr
  exact ⟨ht.trans hu, hr⟩

end Vfs
end TriOS
