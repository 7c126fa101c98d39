import TriOS.Fs.BlockMap
import TriOS.Fs.VfsTabs

/-!
# Dirent — the entries of a directory, one call after the other

`file_getdirentry` with the buffer that it hands down. The position of the caller counts the names that were
read, while the slots of the directory may be empty, so that the names are compared with the list of the slots
that are in use.
-/

namespace TriOS
namespace Vfs

open Hoare

/-! ## The buffer of a call -/

/-- `struct iobuf`, with the bytes of the buffer that it was made for. -/
structure Iobuf where
  buf : List UInt8
  ioBase : Nat
  ioOffset : Int
  ioLen : Nat
  ioResid : Nat
  deriving DecidableEq, Repr

/-- `iobuf_init` -/
def iobufInit (buf : List UInt8) (len : Nat) (offset : Int) : Iobuf where
  buf := buf
  ioBase := 0
  ioOffset := offset
  ioLen := len
  ioResid := len

/-- `iobuf_used` -/
def iobufUsed (iob : Iobuf) : Nat := iob.ioLen - iob.ioResid

/-- `iobuf_skip` -/
def iobufSkip (iob : Iobuf) (n : Nat) : SfsM Iobuf := do
  SfsM.assert (n ≤ iob.ioResid)
  pure { iob with ioBase := iob.ioBase + n, ioOffset := iob.ioOffset + n, ioResid := iob.ioResid - n }

/-- `iobuf_move` from memory into the buffer -/
def iobufMove (iob : Iobuf) (data : List UInt8) : SfsM (Int × Iobuf) := do
  let alen := min iob.ioResid data.length
  let moved := iob.buf.take iob.ioBase ++ data.take alen ++ iob.buf.drop (iob.ioBase + alen)
  let iob ← (if 0 < alen then iobufSkip { iob with buf := moved } alen else pure iob)
  pure (if data.length - alen = 0 then 0 else -eNoMem, iob)

/-- The bytes of the field `name` of an entry. Those behind the end of the string are never looked at. -/
def nameField (name : List UInt8) : List UInt8 :=
  name ++ List.replicate (sfsMaxFnameLen + 1 - name.length) 0

/-- `sfs_getdirentry` -/
def sfsGetdirentry (n : Nat) (iob : Iobuf) : SfsM (Int × Iobuf) := do
  match ← direntryAt n iob.ioOffset with
  | Except.error ret => pure (ret, iob)
  | Except.ok name => iobufMove iob (nameField name)

/-- `struct dirent` -/
structure Dirent where
  offset : Int
  name : List UInt8
  deriving DecidableEq, Repr

namespace Dirent

/-- `vop_getdirentry` -/
def vopGetdirentry (node : Node) (iob : Iobuf) : Code (Int × Iobuf) := do
  vopOp node Vop.vopGetdirentry
  match node with
  | Node.sfs ino _ => onSfs (sfsGetdirentry ino iob)
  | Node.dev _ => noCode

/-- `file_getdirentry`, with the entry that the caller is left with. -/
def fileGetdirentry (p : Nat) (fd : Int) (direntp : Dirent) : Code (Int × Dirent) := do
  match ← fd2file p fd with
  | none => pure (-eInval, direntp)
  | some fd => do
      fdArrayAcquire p fd
      let node ← nodeOf p fd
      let iob := iobufInit direntp.name (sfsMaxFnameLen + 1) direntp.offset
      let (ret, iob) ← vopGetdirentry node iob
      let offset := if ret = 0 then direntp.offset + iobufUsed iob else direntp.offset
      fdArrayRelease p fd
      pure (ret, { offset := offset, name := iob.buf })

/-- What a caller sees of a call: the name, or the error. -/
def answer (ret : Int) (direntp : Dirent) : Except Int (List UInt8) :=
  if ret = 0 then Except.ok (cString direntp.name) else Except.error ret

/-- Calls of `file_getdirentry` one after the other, each of which goes on where the last one has ended. -/
def enumerate (p : Nat) (fd : Int) : Nat → Dirent → Code (List (Except Int (List UInt8)))
  | 0, _ => pure []
  | calls + 1, direntp => do
      let (ret, direntp) ← fileGetdirentry p fd direntp
      let rest ← enumerate p fd calls direntp
      pure (answer ret direntp :: rest)

end Dirent

/-! ## The slots in use -/

/-- The names in `len` slots from `i` on, without the slots that are empty. -/
def Sfs.names (s : Sfs) (din : Din) (i len : Nat) : List (List UInt8) :=
  (((List.range' i len).map (s.entry din)).filter fun e => e.1 ≠ 0).map Prod.snd

/-- The inode `n` in memory is a directory whose blocks are the list. -/
structure IsDir (s : Sfs) (n : Nat) (sin : Sin) (L : List Nat) : Prop where
  free : FreeOk s
  inode : s.sin n = some sin
  list : ListOf s sin.din L
  type : sin.din.type = typeDir

variable {s t u : Sfs} {n slot i rounds : Nat} {sin : Sin} {L : List Nat} {offset : Int}

theorem IsDir.maps (h : IsDir s n sin L) : Maps s n L := ⟨h.free, sin, h.inode, h.list⟩

theorem IsDir.quiet (h : IsDir s n sin L) (hquiet : Quiet s t) : IsDir t n sin L where
  free := (hquiet.grows h.free).free
  inode := hquiet.sin_eq ▸ h.inode
  list := h.list.grows h.free (hquiet.grows h.free)
  type := h.type

theorem Quiet.names (h : Quiet s t) (din : Din) (i len : Nat) : t.names din i len = s.names din i len := by
  obtain ⟨requests, rfl⟩ := h
  rfl

theorem Sfs.names_succ (din : Din) (i len : Nat) :
    s.names din i (len + 1) =
      if (s.entry din i).1 = 0 then s.names din (i + 1) len
      else (s.entry din i).2 :: s.names din (i + 1) len := by
  unfold Sfs.names
  rw [List.range'_succ, List.map_cons, List.filter_cons]
  by_cases h : (s.entry din i).1 = 0
  · rw [if_pos h, if_neg (by simp [h])]
  · rw [if_neg h, if_pos (decide_eq_true h), List.map_cons]

/-- A read of a slot gives its entry. It fails only with a request to the device. -/
theorem sfsDirentRead_spec (h : IsDir s n sin L) (hslot : slot < L.length) :
    Triple Never (sfsDirentReadNolock n slot) s fun r t => Quiet s t ∧
      (r = (0, s.entry sin.din slot) ∧ (Served s → Served t) ∨ r.1 = -eInval ∧ ¬ Served s) := by
  have hused := h.list.used_slot hslot
  have hentry : s.blockNo sin.din slot = L.getD slot 0 := h.list.slots slot (hslot.trans_le h.list.max)
  unfold sfsDirentReadNolock
  rw [triple_bind, triple_derefSin_of h.inode, triple_bind,
    triple_assert_of ⟨h.type, hslot.trans_eq h.list.blocks.symm⟩]
  refine (sfsBmapLoad_lookup h.maps hslot).bind fun r t hr => ?_
  obtain ⟨ret, ino⟩ := r
  obtain ⟨hquiet, ⟨hfound, hserved⟩ | hfail⟩ := hr
  · obtain ⟨rfl, rfl⟩ := Prod.mk.inj hfound
    have ht := hquiet.grows h.free
    have hused' := (ht.used _ hused).1
    dsimp only
    rw [if_neg (not_not.2 rfl)]
    refine (hused'.inuse ht.free).bind fun inuse u hu => ?_
    obtain ⟨rfl, rfl⟩ := hu
    rw [triple_bind, triple_assert_of rfl]
    refine (sfsRbuf_spec ht.free hused'.1 hused'.2.1 (by decide) (by decide)).bind fun r v hr => ?_
    obtain ⟨ret, bytes⟩ := r
    obtain ⟨hquiet', ⟨hread, hserved'⟩ | ⟨hfail, hnot⟩⟩ := hr
    · obtain ⟨rfl, rfl⟩ := Prod.mk.inj hread
      dsimp only
      rw [if_neg (not_not.2 rfl)]
      refine ⟨hquiet.trans hquiet', Or.inl ⟨?_, fun hs => hserved' (hserved hs)⟩⟩
      unfold Sfs.entry
      rw [hentry, h.free.block_eq hused.2.1, hquiet.disk]
    · dsimp only at hfail ⊢
      rw [if_pos (hfail.trans_ne eInval_ne_zero)]
      exact ⟨hquiet.trans hquiet', Or.inr ⟨hfail, fun hs => hnot (hserved hs)⟩⟩
  · dsimp only at hfail ⊢
    rw [if_pos (hfail.1.trans_ne eInval_ne_zero)]
    exact ⟨hquiet, Or.inr hfail⟩

/-- What a search for the name in a position may return. -/
def Named (name : Option (List UInt8)) (r : Except Int (List UInt8)) : Prop :=
  match name with
  | some name => r = Except.ok name
  | none => r = Except.error (-eNoent)

/-- The loop finds the name in the position that it is given, among the slots in use. -/
theorem getdirentryLoop_spec (h : IsDir s n sin L) (hrounds : i + rounds ≤ L.length) :
    Triple Never (getdirentryLoop n rounds i slot) s fun r t => Quiet s t ∧
      (Named (s.names sin.din i rounds)[slot]? r ∧ (Served s → Served t) ∨ r = Except.error (-eInval) ∧ ¬ Served s) := by
  induction rounds generalizing s i slot with
  | zero => exact ⟨Quiet.refl, Or.inl ⟨rfl, id⟩⟩
  | succ rounds ih =>
      unfold getdirentryLoop
      refine (sfsDirentRead_spec h (by omega)).bind fun r t hr => ?_
      obtain ⟨ret, ino, name⟩ := r
      obtain ⟨hquiet, ⟨hread, hserved⟩ | ⟨hfail, hnot⟩⟩ := hr
      · obtain ⟨rfl, hentry⟩ := Prod.mk.inj hread
        dsimp only
        rw [if_neg (not_not.2 rfl), Sfs.names_succ, ← hentry]
        dsimp only
        -- the slots behind this one, from the state after the read
        have hrest : ∀ slot, Triple Never (getdirentryLoop n rounds (i + 1) slot) t fun r u => Quiet s u ∧
            (Named (s.names sin.din (i + 1) rounds)[slot]? r ∧ (Served s → Served u) ∨
              r = Except.error (-eInval) ∧ ¬ Served s) := by
          intro slot
          refine (ih (h.quiet hquiet) (by omega)).mono fun r u hr => ⟨hquiet.trans hr.1, ?_⟩
          rw [hquiet.names] at hr
          rcases hr.2 with ⟨hnamed, hserved'⟩ | ⟨hfail, hnot⟩
          · exact Or.inl ⟨hnamed, fun hs => hserved' (hserved hs)⟩
          · exact Or.inr ⟨hfail, fun hs => hnot (hserved hs)⟩
        by_cases hino : ino = 0
        · rw [if_pos hino, if_pos hino]
          exact hrest slot
        · rw [if_neg hino, if_neg hino]
          cases slot with
          | zero => exact ⟨hquiet, Or.inl ⟨rfl, hserved⟩⟩
          | succ slot => exact hrest slot
      · dsimp only at hfail ⊢
        rw [if_pos (hfail.trans_ne eInval_ne_zero)]
        exact ⟨hquiet, Or.inr ⟨congrArg Except.error hfail, hnot⟩⟩

theorem fails_spec :
    Triple Never fails s fun r t => Quiet s t ∧ (r = true → ¬ Served s) ∧ (Served s → Served t) :=
  ⟨⟨_, rfl⟩, not_served_of_fails, Served.tail⟩

/-- The errors of the device and of `kmalloc`. -/
def Refused (r : Except Int (List UInt8)) : Prop :=
  r = Except.error (-eInval) ∨ r = Except.error (-eNoMem)

theorem names_length_le (din : Din) (i len : Nat) : (s.names din i len).length ≤ len := by
  calc (s.names din i len).length
    _ ≤ ((List.range' i len).map (s.entry din)).length := by
        unfold Sfs.names
        rw [List.length_map]
        exact List.length_filter_le _ _
    _ = len := by rw [List.length_map, List.length_range']

/-- The offset behind `k` entries. -/
def entryOffset (k : Nat) : Int := ((sfsMaxFnameLen + 1) * k : Nat)

theorem entryOffset_aligned (k : Nat) :
    ¬ (entryOffset k < 0 ∨ entryOffset k % (sfsMaxFnameLen + 1 : Nat) ≠ 0) := by
  unfold entryOffset sfsMaxFnameLen
  omega

theorem entryOffset_slot {k : Nat} (hk : k < 2 ^ 32) :
    (entryOffset k).toNat / (sfsMaxFnameLen + 1) % 2 ^ 32 = k := by
  unfold entryOffset
  rw [Int.toNat_natCast, Nat.mul_div_cancel_left _ (Nat.succ_pos _), Nat.mod_eq_of_lt hk]

/-- An offset of whole entries leads to the name in that position. -/
theorem direntryAt_spec (h : IsDir s n sin L) {k : Nat} (hk : k < 2 ^ 32) :
    Triple Never (direntryAt n (entryOffset k)) s fun r t => Quiet s t ∧
      (Named (s.names sin.din 0 L.length)[k]? r ∧ (Served s → Served t) ∨ Refused r ∧ ¬ Served s) := by
  unfold direntryAt
  refine fails_spec.bind fun failed t hr => ?_
  obtain ⟨hquiet, hfailed, hserved⟩ := hr
  have ht := h.quiet hquiet
  refine triple_ite (fun hfail => ⟨hquiet, Or.inr ⟨Or.inr rfl, hfailed hfail⟩⟩) fun _ => ?_
  rw [if_neg (entryOffset_aligned k), triple_bind, triple_derefSin_of ht.inode, entryOffset_slot hk]
  dsimp only
  rw [h.list.blocks]
  refine triple_ite (fun hbehind => ⟨hquiet, Or.inl ⟨?_, hserved⟩⟩) fun _ => ?_
  · rw [List.getElem?_eq_none ((names_length_le _ _ _).trans hbehind.le)]
    exact rfl
  · refine (getdirentryLoop_spec ht (Nat.zero_add _).le).mono fun r u hr => ⟨hquiet.trans hr.1, ?_⟩
    rw [hquiet.names] at hr
    rcases hr.2 with ⟨hnamed, hserved'⟩ | ⟨hfail, hnot⟩
    · exact Or.inl ⟨hnamed, fun hs => hserved' (hserved hs)⟩
    · exact Or.inr ⟨Or.inl hfail, fun hs => hnot (hserved hs)⟩

/-- Any other offset is refused. -/
theorem direntryAt_refused (hoffset : offset < 0 ∨ offset % (sfsMaxFnameLen + 1 : Nat) ≠ 0) :
    Triple Never (direntryAt n offset) s fun r t => Quiet s t ∧
      (r = Except.error (-eInval) ∨ r = Except.error (-eNoMem) ∧ ¬ Served s) := by
  unfold direntryAt
  refine fails_spec.bind fun failed t hr => ?_
  obtain ⟨hquiet, hfailed, -⟩ := hr
  refine triple_ite (fun hfail => ⟨hquiet, Or.inr ⟨rfl, hfailed hfail⟩⟩) fun _ => ?_
  rw [if_pos hoffset]
  exact ⟨hquiet, Or.inl rfl⟩

/-! ## The name in the buffer -/

theorem length_cString_le (bytes : List UInt8) : (cString bytes).length ≤ bytes.length :=
  (List.takeWhile_sublist _).length_le

/-- A name that was read fits in its field. -/
theorem names_fit {din : Din} {len : Nat} {name : List UInt8} (hname : name ∈ s.names din i len) :
    name.length ≤ sfsMaxFnameLen ∧ ∀ c ∈ name, c ≠ 0 := by
  unfold Sfs.names at hname
  obtain ⟨e, he, rfl⟩ := List.mem_map.1 hname
  obtain ⟨slot, -, rfl⟩ := List.mem_map.1 (List.mem_of_mem_filter he)
  constructor
  · exact (length_cString_le _).trans (List.length_take_le _ _)
  · intro c hc
    have hne := List.mem_takeWhile_imp hc
    exact bne_iff_ne.1 hne

theorem length_nameField {name : List UInt8} (h : name.length ≤ sfsMaxFnameLen) :
    (nameField name).length = sfsMaxFnameLen + 1 := by
  unfold nameField
  rw [List.length_append, List.length_replicate]
  omega

theorem cString_nameField {name : List UInt8} (h : name.length ≤ sfsMaxFnameLen) (hne : ∀ c ∈ name, c ≠ 0)
    (rest : List UInt8) : cString (nameField name ++ rest) = name := by
  have hpos : sfsMaxFnameLen + 1 - name.length = (sfsMaxFnameLen - name.length) + 1 := by omega
  unfold cString nameField
  rw [hpos, List.replicate_succ, List.append_assoc, List.takeWhile_append_of_pos, List.cons_append,
    List.takeWhile_cons_of_neg, List.append_nil]
  · simp
  · exact fun c hc => bne_iff_ne.2 (hne c hc)

/-- The field of a name fills the buffer of the call. -/
theorem iobufMove_spec {data : List UInt8} (buf : List UInt8) (offset : Int)
    (hdata : data.length = sfsMaxFnameLen + 1) :
    Triple Never (iobufMove (iobufInit buf (sfsMaxFnameLen + 1) offset) data) s fun r t => t = s ∧ r.1 = 0 ∧
      r.2.buf = data ++ buf.drop (sfsMaxFnameLen + 1) ∧ iobufUsed r.2 = sfsMaxFnameLen + 1 := by
  unfold iobufMove iobufInit iobufSkip
  dsimp only
  rw [hdata, min_self, if_pos (Nat.succ_pos _), triple_bind, triple_bind, triple_assert_of le_rfl, triple_pure,
    triple_pure]
  refine ⟨rfl, ?_, ?_, ?_⟩
  · dsimp only
    exact if_pos (Nat.sub_self _)
  · dsimp only
    rw [List.take_zero, List.nil_append, ← hdata, List.take_length, Nat.zero_add]
  · unfold iobufUsed
    dsimp only
    omega

/-- What `sfs_getdirentry` does to the buffer, as what its caller sees of it. -/
structure Filled (iob : Iobuf) (r : Except Int (List UInt8)) (ret : Int) (iob' : Iobuf) : Prop where
  name : ∀ name, r = Except.ok name → ret = 0 ∧ cString iob'.buf = name ∧ iobufUsed iob' = sfsMaxFnameLen + 1
  error : ∀ e, r = Except.error e → ret = e ∧ iob' = iob

theorem sfsGetdirentry_spec {buf : List UInt8} {P : Except Int (List UInt8) → Sfs → Prop}
    (hread : Triple Never (direntryAt n offset) s P)
    (hfit : ∀ name t, P (Except.ok name) t → name.length ≤ sfsMaxFnameLen ∧ ∀ c ∈ name, c ≠ 0) :
    Triple Never (sfsGetdirentry n (iobufInit buf (sfsMaxFnameLen + 1) offset)) s fun r t =>
      ∃ x, P x t ∧ Filled (iobufInit buf (sfsMaxFnameLen + 1) offset) x r.1 r.2 := by
  unfold sfsGetdirentry
  refine hread.bind fun x t hx => ?_
  cases x with
  | error e =>
      refine ⟨_, hx, ⟨fun name h => (nomatch h), fun e' h => ?_⟩⟩
      cases h
      exact ⟨rfl, rfl⟩
  | ok name =>
      obtain ⟨hlen, hne⟩ := hfit name t hx
      refine (iobufMove_spec buf offset (length_nameField hlen)).mono fun r u hr => ?_
      obtain ⟨rfl, hret, hbuf, hused⟩ := hr
      refine ⟨_, hx, ⟨fun name' h => ?_, fun e h => (nomatch h)⟩⟩
      cases h
      exact ⟨hret, by rw [hbuf, cString_nameField hlen hne], hused⟩

/-! ## Calls on an open directory -/

/-- The code of the file system layers does not stop. -/
def NeverStop (_ : Stop) : Prop := False

/-- The file `fd` of the process `p` is open on the directory `n`. The counters of the directory pass the check
that stands before every operation. -/
structure OpenDir (s : State) (p fd n : Nat) (sin : Sin) (L : List Nat) : Prop where
  lt : fd < filesStructNentry
  status : ((s.files p).fdArray fd).status = FdStatus.opened
  node : ((s.files p).fdArray fd).node = some (Node.sfs n true)
  held : 0 < ((s.files p).fdArray fd).openCount
  opens : s.opens (Node.sfs n true) ≤ s.ref (Node.sfs n true) ∧ 0 ≤ s.opens (Node.sfs n true)
  counts : s.ref (Node.sfs n true) < maxCount ∧ s.opens (Node.sfs n true) < maxCount
  dir : IsDir s.sfs n sin L

variable {σ : State} {p fd : Nat} {direntp : Dirent}

theorem OpenDir.quiet {sfs : Sfs} (h : OpenDir σ p fd n sin L) (hquiet : Quiet σ.sfs sfs) :
    OpenDir { σ with sfs := sfs } p fd n sin L :=
  ⟨h.lt, h.status, h.node, h.held, h.opens, h.counts, h.dir.quiet hquiet⟩

theorem triple_codeAssert_of {E : Stop → Prop} {P : Prop} [Decidable P] {Q : Unit → State → Prop} (hP : P) :
    Triple E (Code.assert P) σ Q ↔ Q () σ := by
  unfold Code.assert
  rw [if_pos hP]
  exact triple_pure

theorem State.files_setFile {file : File} : ((σ.setFile p fd file).files p).fdArray fd = file := by
  unfold State.setFile
  dsimp only
  rw [Function.update_self]
  exact Function.update_self _ _ _

/-- An entry that gets its old value back. -/
theorem State.setFile_restore (file : File) :
    (σ.setFile p fd file).setFile p fd ((σ.files p).fdArray fd) = σ := by
  unfold State.setFile
  dsimp only
  rw [Function.update_self, Function.update_idem, Function.update_idem, Function.update_eq_self]
  exact congrArg (fun files => { σ with files := files }) (Function.update_eq_self p σ.files)

/-- `fd_array_acquire` of an open file -/
theorem fdArrayAcquire_spec {file : File} (hfile : (σ.files p).fdArray fd = file)
    (hstatus : file.status = FdStatus.opened) :
    Triple NeverStop (fdArrayAcquire p fd) σ fun _ τ =>
      τ = σ.setFile p fd { file with openCount := file.openCount + 1 } := by
  unfold fdArrayAcquire
  rw [triple_bind, triple_getFile, hfile, triple_bind, triple_codeAssert_of hstatus]
  exact rfl

/-- `fd_array_release` of an open file that is held once more -/
theorem fdArrayRelease_spec {file : File} (hfile : (σ.files p).fdArray fd = file)
    (hstatus : file.status = FdStatus.opened) (hheld : 1 < file.openCount) :
    Triple NeverStop (fdArrayRelease p fd) σ fun _ τ =>
      τ = σ.setFile p fd { file with openCount := file.openCount - 1 } := by
  unfold fdArrayRelease
  rw [triple_bind, triple_getFile, hfile, triple_bind, triple_codeAssert_of (Or.inl hstatus), triple_bind,
    triple_codeAssert_of (by omega), if_neg (by omega)]
  exact rfl

theorem nodeOf_spec {node : Node} (hnode : ((σ.files p).fdArray fd).node = some node) :
    Triple NeverStop (nodeOf p fd) σ fun r τ => r = node ∧ τ = σ := by
  unfold nodeOf fileNode
  rw [triple_bind, triple_getFile, hnode]
  exact ⟨rfl, rfl⟩

namespace Dirent

theorem vopGetdirentry_spec (σ : State) {iob : Iobuf} {Q : Int × Iobuf → Sfs → Prop}
    (hopens : σ.opens (Node.sfs n true) ≤ σ.ref (Node.sfs n true) ∧ 0 ≤ σ.opens (Node.sfs n true))
    (hcounts : σ.ref (Node.sfs n true) < maxCount ∧ σ.opens (Node.sfs n true) < maxCount)
    (h : Triple Never (sfsGetdirentry n iob) σ.sfs Q) :
    Triple NeverStop (vopGetdirentry (Node.sfs n true) iob) σ fun r τ =>
      ∃ sfs, τ = { σ with sfs := sfs } ∧ Q r sfs := by
  have hop : Vop.vopGetdirentry ∈ OpTable.sfsNodeDirops.ops := by decide
  unfold vopGetdirentry vopOp checkNode Node.inOps
  dsimp only
  rw [triple_bind, if_pos hop, triple_bind, triple_get, triple_bind, triple_codeAssert_of hopens,
    triple_codeAssert_of hcounts]
  exact triple_zoom.2 (h.mono fun r sfs hr => ⟨sfs, rfl, hr⟩)

/-- A call on an open directory reads the name at the offset, and moves on behind it. A call that fails leaves
the entry of the caller as it was. -/
theorem fileGetdirentry_spec {P : Except Int (List UInt8) → Sfs → Prop} (h : OpenDir σ p fd n sin L)
    (hread : Triple Never (direntryAt n direntp.offset) σ.sfs P)
    (hfit : ∀ name t, P (Except.ok name) t → name.length ≤ sfsMaxFnameLen ∧ ∀ c ∈ name, c ≠ 0) :
    Triple NeverStop (fileGetdirentry p fd direntp) σ fun r τ => ∃ x sfs, τ = { σ with sfs := sfs } ∧ P x sfs ∧
      (∀ name, x = Except.ok name → r.1 = 0 ∧ cString r.2.name = name ∧
        r.2.offset = direntp.offset + (sfsMaxFnameLen + 1 : Nat)) ∧
      ∀ e, x = Except.error e → r = (e, direntp) := by
  have hfd : (0 : Int) ≤ fd ∧ (fd : Int) < filesStructNentry := ⟨Int.natCast_nonneg fd, Int.ofNat_lt.2 h.lt⟩
  obtain ⟨file, hfile⟩ : ∃ file, (σ.files p).fdArray fd = file := ⟨_, rfl⟩
  have hstatus : file.status = FdStatus.opened := hfile ▸ h.status
  have hheld : 0 < file.openCount := hfile ▸ h.held
  unfold fileGetdirentry fd2file
  rw [if_pos hfd, triple_bind, triple_bind, Int.toNat_natCast, triple_getFile, if_pos h.status, triple_pure]
  dsimp only
  refine (fdArrayAcquire_spec hfile hstatus).bind fun _ τ hτ => ?_
  subst hτ
  have hnode : (((σ.setFile p fd { file with openCount := file.openCount + 1 }).files p).fdArray fd).node =
      some (Node.sfs n true) := by
    rw [State.files_setFile, ← h.node, hfile]
  refine (nodeOf_spec hnode).bind fun node τ hτ => ?_
  obtain ⟨rfl, rfl⟩ := hτ
  refine (vopGetdirentry_spec (σ.setFile p fd _) h.opens h.counts (sfsGetdirentry_spec hread hfit)).bind fun r τ hτ => ?_
  obtain ⟨sfs, rfl, x, hx, hname, herror⟩ := hτ
  have hfile' : (({ σ.setFile p fd { file with openCount := file.openCount + 1 } with sfs := sfs } : State).files
      p).fdArray fd = { file with openCount := file.openCount + 1 } := State.files_setFile
  refine (fdArrayRelease_spec hfile' hstatus (Int.lt_add_of_pos_left 1 hheld)).bind fun _ τ hτ => ?_
  have hτ' : τ = { σ with sfs := sfs } := by
    rw [hτ]
    dsimp only
    rw [Int.add_sub_cancel, ← hfile]
    exact congrArg (fun τ : State => { τ with sfs := sfs }) (State.setFile_restore _)
  refine ⟨x, sfs, hτ', hx, fun name hok => ?_, fun e hfail => ?_⟩
  · obtain ⟨hret, hstring, hused⟩ := hname name hok
    refine ⟨hret, hstring, ?_⟩
    dsimp only
    rw [if_pos hret, hused]
  · obtain ⟨hret, hiob⟩ := herror e hfail
    rw [hret, hiob]
    unfold iobufUsed iobufInit
    dsimp only
    rw [Nat.sub_self, Nat.cast_zero, add_zero, ite_self]

end Dirent

/-! ## The whole directory -/

/-- The answers of calls that start behind `k` names: the names that follow, one after the other, the end of the
directory when none is left, and errors of the device and of `kmalloc` between them. -/
inductive Answers (used : List (List UInt8)) : Nat → List (Except Int (List UInt8)) → Prop
  | nil {k : Nat} : Answers used k []
  | name {k : Nat} {name : List UInt8} {rest : List (Except Int (List UInt8))} (hname : used[k]? = some name)
      (hrest : Answers used (k + 1) rest) : Answers used k (Except.ok name :: rest)
  | behind {k : Nat} {rest : List (Except Int (List UInt8))} (hend : used[k]? = none) (hrest : Answers used k rest) :
      Answers used k (Except.error (-eNoent) :: rest)
  | refused {k : Nat} {r : Except Int (List UInt8)} {rest : List (Except Int (List UInt8))} (hr : Refused r)
      (hrest : Answers used k rest) : Answers used k (r :: rest)

/-- The names among the answers. -/
def namesOf (answers : List (Except Int (List UInt8))) : List (List UInt8) := answers.filterMap Except.toOption

variable {used : List (List UInt8)} {k calls : Nat} {answers : List (Except Int (List UInt8))}

theorem Refused.namesOf {r : Except Int (List UInt8)} (h : Refused r) (rest : List (Except Int (List UInt8))) :
    namesOf (r :: rest) = Vfs.namesOf rest := by
  rcases h with rfl | rfl <;> exact rfl

theorem Refused.ne_behind {r : Except Int (List UInt8)} (h : Refused r) : r ≠ Except.error (-eNoent) := by
  rcases h with rfl | rfl <;> decide

/-- No name is left out, and none comes twice. -/
theorem Answers.isPrefix (h : Answers used k answers) : namesOf answers <+: used.drop k := by
  induction h with
  | nil => exact List.nil_prefix
  | @name k name rest hname hrest ih =>
      obtain ⟨hk, rfl⟩ := List.getElem?_eq_some_iff.1 hname
      rw [List.drop_eq_getElem_cons hk]
      exact List.cons_prefix_cons.2 ⟨rfl, ih⟩
  | behind hend hrest ih => exact ih
  | @refused k r rest hr hrest ih =>
      rw [hr.namesOf]
      exact ih

/-- The end is reported behind the last name only. -/
theorem Answers.complete (h : Answers used k answers) (hend : Except.error (-eNoent) ∈ answers) :
    namesOf answers = used.drop k := by
  induction h with
  | nil => exact absurd hend List.not_mem_nil
  | @name k name rest hname hrest ih =>
      obtain ⟨hk, rfl⟩ := List.getElem?_eq_some_iff.1 hname
      rw [List.drop_eq_getElem_cons hk]
      have hrest' : Except.error (-eNoent) ∈ rest := (List.mem_cons.1 hend).resolve_left (by simp)
      exact congrArg (used[k] :: ·) (ih hrest')
  | @behind k rest hnone hrest ih =>
      have hnil : used.drop k = [] := List.drop_eq_nil_of_le (List.getElem?_eq_none_iff.1 hnone)
      have hprefix : namesOf rest <+: [] := hnil ▸ hrest.isPrefix
      rw [hnil]
      exact List.prefix_nil.1 hprefix
  | @refused k r rest hr hrest ih =>
      rw [hr.namesOf]
      exact ih ((List.mem_cons.1 hend).resolve_left hr.ne_behind.symm)

/-- The answers of calls that start behind `k` names when every request is served. -/
def served (used : List (List UInt8)) (k calls : Nat) : List (Except Int (List UInt8)) :=
  (List.range' k calls).map fun i => (used[i]?).elim (Except.error (-eNoent)) Except.ok

theorem answer_ok {ret : Int} {name : List UInt8} (hret : ret = 0) (hname : cString direntp.name = name) :
    Dirent.answer ret direntp = Except.ok name := by
  unfold Dirent.answer
  rw [if_pos hret, hname]

theorem eNoent_ne_zero : -eNoent ≠ 0 := by decide

theorem eNoMem_ne_zero : -eNoMem ≠ 0 := by decide

theorem answer_error {e : Int} (he : e ≠ 0) : Dirent.answer e direntp = Except.error e := by
  unfold Dirent.answer
  rw [if_neg he]

theorem served_succ (used : List (List UInt8)) (k calls : Nat) :
    served used k (calls + 1) = (used[k]?).elim (Except.error (-eNoent)) Except.ok :: served used (k + 1) calls := by
  unfold served
  rw [List.range'_succ, List.map_cons]

/-- Behind the last name, it does not matter how far. -/
theorem served_behind {j : Nat} (hk : used.length ≤ k) (hj : used.length ≤ j) :
    served used k calls = served used j calls := by
  induction calls generalizing k j with
  | zero => rfl
  | succ calls ih =>
      rw [served_succ, served_succ, List.getElem?_eq_none hk, List.getElem?_eq_none hj,
        ih (Nat.le_succ_of_le hk) (Nat.le_succ_of_le hj)]

theorem entryOffset_succ (k : Nat) : entryOffset k + (sfsMaxFnameLen + 1 : Nat) = entryOffset (k + 1) := by
  unfold entryOffset
  rw [Nat.mul_succ]
  exact (Nat.cast_add _ _).symm

/-- What a name is that was read. -/
theorem Named.eq {x : Except Int (List UInt8)} (h : Named used[k]? x) :
    (∃ name, used[k]? = some name ∧ x = Except.ok name) ∨ used[k]? = none ∧ x = Except.error (-eNoent) := by
  cases hname : used[k]? with
  | none =>
      rw [hname] at h
      exact Or.inr ⟨rfl, h⟩
  | some name =>
      rw [hname] at h
      exact Or.inl ⟨name, rfl, h⟩

/-- One call from behind `k` names. -/
theorem fileGetdirentry_step (h : OpenDir σ p fd n sin L) (hk : k < 2 ^ 32) (hoffset : direntp.offset = entryOffset k) :
    Triple NeverStop (Dirent.fileGetdirentry p fd direntp) σ fun r τ => ∃ sfs, τ = { σ with sfs := sfs } ∧
      Quiet σ.sfs sfs ∧
      ((∃ name, (σ.sfs.names sin.din 0 L.length)[k]? = some name ∧ Dirent.answer r.1 r.2 = Except.ok name ∧
          r.2.offset = entryOffset (k + 1) ∧ (Served σ.sfs → Served sfs)) ∨
        (σ.sfs.names sin.din 0 L.length)[k]? = none ∧ Dirent.answer r.1 r.2 = Except.error (-eNoent) ∧
          r.2 = direntp ∧ (Served σ.sfs → Served sfs) ∨
        Refused (Dirent.answer r.1 r.2) ∧ r.2 = direntp ∧ ¬ Served σ.sfs) := by
  have hread := direntryAt_spec h.dir hk
  rw [← hoffset] at hread
  refine (Dirent.fileGetdirentry_spec h hread ?_).mono fun r τ hr => ?_
  · rintro name t ⟨-, ⟨hnamed, -⟩ | ⟨hrefused, -⟩⟩
    · rcases hnamed.eq with ⟨name', hget, hok⟩ | ⟨-, herror⟩
      · cases hok
        exact names_fit (List.mem_of_getElem? hget)
      · cases herror
    · rcases hrefused with herror | herror <;> cases herror
  · obtain ⟨x, sfs, hτ, ⟨hquiet, hx⟩, hok, herror⟩ := hr
    refine ⟨sfs, hτ, hquiet, ?_⟩
    rcases hx with ⟨hnamed, hserved⟩ | ⟨hrefused, hnot⟩
    · rcases hnamed.eq with ⟨name, hget, rfl⟩ | ⟨hnone, rfl⟩
      · obtain ⟨hret, hstring, hnext⟩ := hok name rfl
        rw [hoffset, entryOffset_succ] at hnext
        exact Or.inl ⟨name, hget, answer_ok hret hstring, hnext, hserved⟩
      · rw [herror _ rfl]
        exact Or.inr (Or.inl ⟨hnone, answer_error eNoent_ne_zero, rfl, hserved⟩)
    · refine Or.inr (Or.inr ?_)
      rcases hrefused with rfl | rfl
      · rw [herror _ rfl]
        exact ⟨Or.inl (answer_error eInval_ne_zero), rfl, hnot⟩
      · rw [herror _ rfl]
        exact ⟨Or.inr (answer_error eNoMem_ne_zero), rfl, hnot⟩

/-- Calls one after the other, from behind `k` names. -/
theorem enumerate_spec (calls k : Nat) (direntp : Dirent) (h : OpenDir σ p fd n sin L) (hk : k ≤ (σ.sfs.names sin.din 0 L.length).length)
    (hoffset : direntp.offset = entryOffset k) :
    Triple NeverStop (Dirent.enumerate p fd calls direntp) σ fun answers _ => answers.length = calls ∧
      Answers (σ.sfs.names sin.din 0 L.length) k answers ∧
      (Served σ.sfs → answers = served (σ.sfs.names sin.din 0 L.length) k calls) := by
  induction calls generalizing σ k direntp with
  | zero => exact ⟨rfl, Answers.nil, fun _ => rfl⟩
  | succ calls ih =>
      have hlen : L.length ≤ ndirect + sfsBlkNentry := h.dir.list.max
      have hsmall : k < 2 ^ 32 := by
        have hle := hk.trans (names_length_le _ _ _)
        unfold ndirect sfsBlkNentry at hlen
        omega
      unfold Dirent.enumerate
      refine (fileGetdirentry_step h hsmall hoffset).bind fun r τ hr => ?_
      obtain ⟨ret, direntp'⟩ := r
      obtain ⟨sfs, rfl, hquiet, hr⟩ := hr
      have hnames := hquiet.names sin.din 0 L.length
      have hnext := h.quiet hquiet
      dsimp only at hr ⊢
      rcases hr with ⟨name, hget, hanswer, hoffset', hserved⟩ | ⟨hnone, hanswer, rfl, hserved⟩ | ⟨hrefused, rfl, hnot⟩
      · obtain ⟨hlt, -⟩ := List.getElem?_eq_some_iff.1 hget
        refine (ih _ _ hnext (by rw [hnames]; exact hlt) hoffset').bind fun rest τ' hrest => ?_
        dsimp only at hrest
        rw [hnames] at hrest
        obtain ⟨hlength, hanswers, hall⟩ := hrest
        rw [hanswer]
        refine ⟨congrArg Nat.succ hlength, Answers.name hget hanswers, fun hs => ?_⟩
        rw [served_succ, hget, ← hall (hserved hs)]
        rfl
      · have hle := List.getElem?_eq_none_iff.1 hnone
        refine (ih _ _ hnext (by rw [hnames]; exact hk) hoffset).bind fun rest τ' hrest => ?_
        dsimp only at hrest
        rw [hnames] at hrest
        obtain ⟨hlength, hanswers, hall⟩ := hrest
        rw [hanswer]
        refine ⟨congrArg Nat.succ hlength, Answers.behind hnone hanswers, fun hs => ?_⟩
        rw [served_succ, hnone, ← served_behind hle (Nat.le_succ_of_le hle), ← hall (hserved hs)]
        rfl
      · refine (ih _ _ hnext (by rw [hnames]; exact hk) hoffset).bind fun rest τ' hrest => ?_
        dsimp only at hrest
        rw [hnames] at hrest
        obtain ⟨hlength, hanswers, -⟩ := hrest
        exact ⟨congrArg Nat.succ hlength, Answers.refused hrefused hanswers, fun hs => absurd hs hnot⟩

/-- The code of the file system layers that never stops returns. -/
theorem exists_ok_of_neverStop {α : Type} {f : Code α} {Q : α → State → Prop} (h : Triple NeverStop f σ Q) :
    ∃ a τ, f σ = Except.ok (a, τ) ∧ Q a τ := by
  cases hf : f σ with
  | error e => exact (h.of_error hf).elim
  | ok x => exact ⟨x.1, x.2, rfl, h.of_ok hf⟩

/-- Any number of calls on an open directory, the first from the start and each other one from where the last has
ended, return the names of the slots in use in the order of the slots, none of them twice and none left out, and the
end of the directory behind the last one only; while every request to the device and to `kmalloc` is served, the
`i`-th call returns the `i`-th name or the end. An offset that is not one of whole entries is refused, and the entry of
the caller stays as it is. -/
theorem directory_enumeration (h : OpenDir σ p fd n sin L) (calls : Nat) (name : List UInt8) :
    (∃ answers τ, Dirent.enumerate p fd calls { offset := 0, name := name } σ = Except.ok (answers, τ) ∧
      answers.length = calls ∧
      namesOf answers <+: σ.sfs.names sin.din 0 sin.din.blocks ∧
      (Except.error (-eNoent) ∈ answers → namesOf answers = σ.sfs.names sin.din 0 sin.din.blocks) ∧
      (Served σ.sfs → answers = (List.range calls).map fun i =>
        ((σ.sfs.names sin.din 0 sin.din.blocks)[i]?).elim (Except.error (-eNoent)) Except.ok)) ∧
    ∀ direntp : Dirent, direntp.offset < 0 ∨ direntp.offset % (sfsMaxFnameLen + 1 : Nat) ≠ 0 →
      ∃ ret τ, Dirent.fileGetdirentry p fd direntp σ = Except.ok ((ret, direntp), τ) ∧
        (ret = -eInval ∨ ret = -eNoMem ∧ ¬ Served σ.sfs) := by
  constructor
  · have hrun := enumerate_spec calls 0 { offset := 0, name := name } h (Nat.zero_le _) rfl
    obtain ⟨answers, τ, hok, hlength, hanswers, hserved⟩ := exists_ok_of_neverStop hrun
    rw [h.dir.list.blocks]
    refine ⟨answers, τ, hok, hlength, hanswers.isPrefix, hanswers.complete, fun hs => ?_⟩
    rw [List.range_eq_range']
    exact hserved hs
  · intro direntp hoffset
    have hcall := Dirent.fileGetdirentry_spec h (direntryAt_refused hoffset) fun name t hr => by
      rcases hr.2 with herror | ⟨herror, -⟩ <;> cases herror
    obtain ⟨r, τ, hok, x, sfs, -, ⟨-, hx⟩, -, herror⟩ := exists_ok_of_neverStop hcall
    rcases hx with rfl | ⟨rfl, hnot⟩
    · cases herror _ rfl
      exact ⟨_, τ, hok, Or.inl rfl⟩
    · cases herror _ rfl
      exact ⟨_, τ, hok, Or.inr ⟨rfl, hnot⟩⟩

/-- A block with an entry of a directory. -/
def entryBlock (ino : Nat) (name : List UInt8) : Block := fun i => (leBytes 4 ino ++ name).getD i 0

/-- A directory of three slots, the second of which is empty. -/
def gapSin : Sin where
  din :=
    { size := 0, type := typeDir, nlinks := 1, blocks := 3, direct := fun i => if i < 3 then i + 2 else 0, indirect := 0 }
  dirty := false
  reclaimCount := 1

/-- A disk of eight blocks with that directory. -/
def gapSfs : Sfs where
  blocks := 8
  unusedBlocks := 1
  superDirty := false
  freemap := { nbits := 32, map := [0x80], nbits_le := by decide }
  disk := fun b => if b = 2 then entryBlock 5 [97] else if b = 4 then entryBlock 6 [98] else fun _ => 0
  sin := fun n => if n = 1 then some gapSin else none
  requests := []

/-- A process that has the directory open as its file 3. -/
def gapState : State where
  sfs := gapSfs
  ref := fun _ => 1
  opens := fun _ => 1
  files := fun _ =>
    { pwd := none
      fdArray := fun _ =>
        { status := FdStatus.opened, readable := true, writable := false, pos := 0, node := some (Node.sfs 1 true),
          openCount := 1 } }

theorem gapSfs_bit (b : Nat) : gapSfs.freemap.bit b = true → 0 < b ∧ b < 8 := by
  intro hbit
  have hsmall : ∀ b < 32, gapSfs.freemap.bit b = true → 0 < b ∧ b < 8 := by decide +kernel
  rcases Nat.lt_or_ge b 32 with hlt | hge
  · exact hsmall b hlt hbit
  · have hword : gapSfs.freemap.word b = 0 := by
      unfold Bitmap.word
      rw [List.getD_eq_getElem?_getD, List.getElem?_eq_none]
      · rfl
      · exact (Nat.le_div_iff_mul_le (by decide)).2 hge
    unfold Bitmap.bit at hbit
    rw [hword] at hbit
    simp at hbit

theorem gapState_open : OpenDir gapState 0 3 1 gapSin [2, 3, 4] := by
  have hused : ∀ b ∈ [2, 3, 4], Used gapSfs b := by
    intro b hb
    have hall : ∀ b ∈ [2, 3, 4], 0 < b ∧ b < 8 ∧ gapSfs.freemap.bit b = false := by decide +kernel
    exact hall b hb
  refine ⟨by decide, rfl, rfl, by decide, by decide, by decide, ?_, rfl, ?_, rfl⟩
  · exact ⟨by decide, by decide, gapSfs_bit, by decide +kernel⟩
  · refine ⟨rfl, by decide, fun i _ => ?_, hused, by decide, fun hne => absurd rfl hne⟩
    change gapSfs.blockNo gapSin.din i = [2, 3, 4].getD i 0
    rcases i with _ | _ | _ | i
    · rfl
    · rfl
    · rfl
    · unfold Sfs.blockNo gapSin
      dsimp only
      rw [if_neg (by omega : ¬ i + 1 + 1 + 1 < 3), if_pos rfl, ite_self]
      rfl

theorem gapState_names : gapState.sfs.names gapSin.din 0 gapSin.din.blocks = [[97], [98]] := by decide +kernel

theorem directory_enumeration_gap :
    (∃ answers τ, Dirent.enumerate 0 (3 : Nat) 4 { offset := 0, name := [] } gapState = Except.ok (answers, τ) ∧
      answers.length = 4 ∧
      namesOf answers <+: [[97], [98]] ∧
      (Except.error (-eNoent) ∈ answers → namesOf answers = [[97], [98]]) ∧
      (Served gapState.sfs → answers = (List.range 4).map fun i =>
        (([[97], [98]] : List (List UInt8))[i]?).elim (Except.error (-eNoent)) Except.ok)) ∧
    ∀ direntp : Dirent, direntp.offset < 0 ∨ direntp.offset % (sfsMaxFnameLen + 1 : Nat) ≠ 0 →
      ∃ ret τ, Dirent.fileGetdirentry 0 (3 : Nat) direntp gapState = Except.ok ((ret, direntp), τ) ∧
        (ret = -eInval ∨ ret = -eNoMem ∧ ¬ Served gapState.sfs) := by
  have h := directory_enumeration gapState_open 4 []
  rw [gapState_names] at h
  exact h

end Vfs
end TriOS
