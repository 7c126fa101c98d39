import TriOS.Fs.FileBytes

/-!
# FileRuns — a mounted file system as files of bytes

Several inodes are in memory, and no block belongs to two of them. Then every read, write and truncation of one of
them is the same operation on its bytes, and leaves the bytes of the others and everything else on the disk as it is:
in every run, whatever requests to the device fail, as long as no request has a whole block in it.
-/

namespace TriOS
namespace Vfs

open Hoare Transition

variable {s t u : Sfs} {n m b len : Nat} {sin : Sin} {din : Din} {K : List Nat} {L : Nat → List Nat}
  {buf : List UInt8} {offset : Int}

/-! ## Files -/

/-- A file: its size, and its bytes, of which those behind the size do not have to be zero. -/
structure FileData where
  size : Nat
  bytes : Block

/-- The bytes of a read. -/
def FileData.read (f : FileData) (offset len : Nat) : List UInt8 := f.bytes.bytes offset (min len (f.size - offset))

/-- The file after a write. -/
def FileData.write (f : FileData) (offset : Nat) (data : List UInt8) : FileData :=
  ⟨max f.size (offset + data.length), f.bytes.put offset data⟩

/-- The file after a truncation: bytes in the last block that is still needed are kept. -/
def FileData.truncate (f : FileData) (len : Nat) : FileData := ⟨len, cut f.bytes (blocksOf len)⟩

/-- The file of an inode in memory. -/
def Sfs.fileData (s : Sfs) (n : Nat) (L : List Nat) : FileData := ⟨s.size n, s.fileBytes L⟩

/-- The block belongs to the inode. -/
def Sfs.Belongs (s : Sfs) (n b : Nat) : Prop :=
  ∃ sin, s.sin n = some sin ∧ b ≠ 0 ∧ (sin.din.indirect = b ∨ ∃ i < sin.din.blocks, s.blockNo sin.din i = b)

/-- Every inode in memory has a list of blocks that belong to no other one, and a file is not larger than these. -/
structure FilesOk (s : Sfs) (L : Nat → List Nat) : Prop where
  maps : ∀ n, s.sin n ≠ none → Maps s n (L n)
  apart : ∀ m n, m ≠ n → s.sin m ≠ none → s.sin n ≠ none → ∀ b, s.Owns m (L m) b → ¬ s.Owns n (L n) b
  cap : ∀ n sin, s.sin n = some sin → sin.din.type ≠ typeDir → s.size n ≤ (L n).length * sfsBlksize

/-- The files of the inodes in memory. -/
def Holds (s : Sfs) (F : Nat → FileData) : Prop :=
  ∃ L, FilesOk s L ∧ ∀ n, s.sin n ≠ none → F n = s.fileData n (L n)

theorem ListOf.kept (h : ListOf s din K) (hs : FreeOk s) (ht : FreeOk t)
    (hkept : ∀ b, b ∈ K ∨ din.indirect ≠ 0 ∧ din.indirect = b → Used t b ∧ t.disk b = s.disk b) : ListOf t din K := by
  refine ⟨h.blocks, h.max, fun i hi => ?_, fun b hb => (hkept b (Or.inl hb)).1, h.nodup,
    fun hne => ⟨(hkept _ (Or.inr ⟨hne, rfl⟩)).1, (h.indirect hne).2⟩⟩
  rw [blockNo_congr hs ht (fun hne => ⟨(h.indirect hne).1, (hkept _ (Or.inr ⟨hne, rfl⟩)).1⟩)
    (fun hne => (hkept _ (Or.inr ⟨hne, rfl⟩)).2)]
  exact h.slots i hi

theorem Maps.belongs_iff (h : Maps s n K) : s.Belongs n b ↔ s.Owns n K b := by
  obtain ⟨sin, hsin, hlist⟩ := h.inode
  constructor
  · rintro ⟨sin', hsin', hne, rfl | ⟨i, hi, rfl⟩⟩
    · exact Or.inr ⟨sin', hsin', hne, rfl⟩
    · cases hsin.symm.trans hsin'
      rw [hlist.blocks] at hi
      rw [hlist.slots i (hi.trans_le hlist.max), List.getD_eq_getElem _ _ hi]
      exact Or.inl (List.getElem_mem hi)
  · rintro (hb | ⟨sin', hsin', hne, rfl⟩)
    · obtain ⟨i, hi, rfl⟩ := List.getElem_of_mem hb
      refine ⟨sin, hsin, (hlist.used _ hb).1.ne', Or.inr ⟨i, hlist.blocks.symm ▸ hi, ?_⟩⟩
      rw [hlist.slots i (hi.trans_le hlist.max), List.getD_eq_getElem _ _ hi]
    · exact ⟨sin', hsin', hne, Or.inl rfl⟩

/-! What is done to one inode leaves a block of another one as it is, and so that inode's block map and file. -/

theorem FilesOk.kept (h : FilesOk s L) (hn : s.sin n ≠ none) (ht : Touches s n (L n) t K) (hmn : m ≠ n)
    (hm : s.sin m ≠ none) (hb : s.Owns m (L m) b) : Used t b ∧ t.disk b = s.disk b :=
  ht.kept b ((h.maps m hm).used hb) (h.apart m n hmn hm hn b hb)

theorem FilesOk.maps_other (h : FilesOk s L) (hn : s.sin n ≠ none) (ht : Touches s n (L n) t K) (hmn : m ≠ n)
    (hm : s.sin m ≠ none) : Maps t m (L m) := by
  obtain ⟨sin, hsin, hlist⟩ := (h.maps m hm).inode
  refine ⟨ht.maps.free, sin, (ht.others m hmn).trans hsin, hlist.kept (h.maps m hm).free ht.maps.free fun b hb => ?_⟩
  refine h.kept hn ht hmn hm ?_
  rcases hb with hb | ⟨hne, heq⟩
  · exact Or.inl hb
  · exact Or.inr ⟨sin, hsin, hne, heq⟩

theorem FilesOk.apart_other (h : FilesOk s L) (hn : s.sin n ≠ none) (ht : Touches s n (L n) t K) (hmn : m ≠ n)
    (hm : s.sin m ≠ none) (hb : t.Owns m (L m) b) : ¬ t.Owns n K b := by
  intro hb'
  have hold := (Owns.of_sin (ht.others m hmn)).1 hb
  -- a block that the operation has added was in no list
  rcases ht.new b hb' with hown | hfresh
  · exact h.apart m n hmn hm hn b hold hown
  · exact hfresh ((h.maps m hm).used hold)

/-- An operation on one inode keeps the others, with their files. -/
theorem FilesOk.touches (h : FilesOk s L) (hn : s.sin n ≠ none) (ht : Touches s n (L n) t K)
    (hcap : t.size n ≤ K.length * sfsBlksize) :
    FilesOk t (Function.update L n K) ∧ ∀ m, m ≠ n → t.sin m ≠ none → t.fileData m (L m) = s.fileData m (L m) := by
  have hsome : ∀ m, m ≠ n → t.sin m ≠ none → s.sin m ≠ none := fun m hm hne => ht.others m hm ▸ hne
  refine ⟨⟨fun m hne => ?_, fun m k hmk hm hk b hb => ?_, fun m sin hsin htype => ?_⟩, fun m hm hne => ?_⟩
  · by_cases hm : m = n
    · rw [hm, Function.update_self]
      exact ht.maps
    · rw [Function.update_of_ne hm]
      exact h.maps_other hn ht hm (hsome m hm hne)
  · -- either of the two may be the inode of the operation
    by_cases hmn : m = n
    · have hkn : k ≠ n := fun heq => hmk (hmn.trans heq.symm)
      rw [hmn, Function.update_self] at hb
      rw [Function.update_of_ne hkn]
      exact fun hb' => h.apart_other hn ht hkn (hsome k hkn hk) hb' hb
    · rw [Function.update_of_ne hmn] at hb
      by_cases hkn : k = n
      · rw [hkn, Function.update_self]
        exact h.apart_other hn ht hmn (hsome m hmn hm) hb
      · rw [Function.update_of_ne hkn]
        intro hb'
        exact h.apart m k hmk (hsome m hmn hm) (hsome k hkn hk) b ((Owns.of_sin (ht.others m hmn)).1 hb)
          ((Owns.of_sin (ht.others k hkn)).1 hb')
  · by_cases hm : m = n
    · rw [hm, Function.update_self]
      exact hcap
    · rw [Function.update_of_ne hm, size_congr (ht.others m hm)]
      exact h.cap m sin ((ht.others m hm).symm.trans hsin) htype
  · unfold Sfs.fileData
    rw [size_congr (ht.others m hm), fileBytes_congr fun b hb => (h.kept hn ht hm (hsome m hm hne) (Or.inl hb)).2]

/-! ## Calls -/

theorem size_le_max (h : Maps s n K) (hcap : s.size n ≤ K.length * sfsBlksize) : s.size n ≤ sfsMaxFileSize := by
  obtain ⟨sin, -, hlist⟩ := h.inode
  have hmax := hlist.max
  unfold ndirect sfsBlkNentry at hmax
  unfold sfsBlksize at hcap
  unfold sfsMaxFileSize
  omega

theorem sfsIoNolock_read (h : Maps s n K) (hsin : s.sin n = some sin) (htype : sin.din.type ≠ typeDir)
    (hcap : s.size n ≤ K.length * sfsBlksize)
    (hwhole : 0 ≤ offset → NoWholeBlock offset.toNat (min (offset.toNat + len) (s.size n))) :
    Triple Never (sfsIoNolock n buf offset len false) s fun r t => Quiet s t ∧
      r.2 <+: (s.fileData n K).read offset.toNat len ∧ (r.1 = 0 → r.2 = (s.fileData n K).read offset.toNat len) := by
  have hmax := size_le_max h hcap
  have hempty : ∀ {ret : Int}, (ret = 0 → (s.fileData n K).read offset.toNat len = []) →
      Triple Never (pure (ret, []) : SfsM (Int × List UInt8)) s fun r t => Quiet s t ∧
        r.2 <+: (s.fileData n K).read offset.toNat len ∧ (r.1 = 0 → r.2 = (s.fileData n K).read offset.toNat len) :=
    fun hnil => ⟨Quiet.refl, List.nil_prefix, fun hret => (hnil hret).symm⟩
  unfold sfsIoNolock
  rw [triple_bind, triple_derefSin_of hsin, triple_bind, triple_assert_of htype]
  refine triple_ite (fun _ => hempty fun hret => absurd hret eInval_ne_zero) fun hvalid => ?_
  obtain ⟨hneg, -⟩ := not_or.1 hvalid
  have hnonneg : 0 ≤ offset := Int.not_lt.1 hneg
  refine triple_ite (fun heq => hempty fun _ => ?_) fun hne => ?_
  · have hlen : len = 0 := by omega
    unfold FileData.read
    rw [hlen, Nat.zero_min]
    rfl
  · dsimp only
    rw [if_neg Bool.false_ne_true]
    refine triple_ite (fun hend => hempty fun _ => ?_) fun hlt => ?_
    · unfold FileData.read Sfs.fileData
      rw [size_of_sin hsin, Nat.sub_eq_zero_of_le hend, Nat.min_zero]
      rfl
    · rw [size_of_sin hsin] at *
      have hendpos : min (min (offset + (len : Int)).toNat sfsMaxFileSize) sin.din.size =
          min (offset.toNat + len) sin.din.size := by omega
      rw [hendpos]
      refine (ioParts_read h (hwhole hnonneg) (by omega) ?_ ?_).mono fun r t hr => ?_
      · rw [size_of_sin hsin]
        exact min_le_right _ _
      · rw [size_of_sin hsin]
        exact hcap
      obtain ⟨hquiet, hread⟩ := hr
      have hlength : min len (sin.din.size - offset.toNat) = min (offset.toNat + len) sin.din.size - offset.toNat := by
        omega
      have hbytes : (s.fileData n K).read offset.toNat len =
          (s.fileBytes K).bytes offset.toNat (min (offset.toNat + len) sin.din.size - offset.toNat) := by
        unfold FileData.read Sfs.fileData
        rw [size_of_sin hsin, ← hlength]
      rw [hbytes]
      rcases hread with rfl | ⟨hfail, hfront⟩
      · exact ⟨hquiet, List.prefix_refl _, fun _ => rfl⟩
      · exact ⟨hquiet, hfront, fun hret => absurd (hfail.symm.trans hret) eInval_ne_zero⟩

theorem Stored.nothing (h : Maps s n K) (hcap : s.size n ≤ K.length * sfsBlksize) {off : Nat} (hoff : off ≤ s.size n)
    {ret : Int} (hret : ret = 0 → buf = []) : Stored s n K off buf (ret, []) s K := by
  refine ⟨Touches.refl h, (put_nil _ _).symm, ?_, hcap, List.nil_prefix, fun hzero => ?_⟩
  · exact (max_eq_left hoff).symm
  · rw [hret hzero]
    refine ⟨rfl, (max_eq_left ?_).symm⟩
    rw [List.length_nil, Nat.add_zero]
    unfold blocksOf sfsBlksize at *
    omega

theorem sfsIoNolock_write (h : Maps s n K) (hsin : s.sin n = some sin) (htype : sin.din.type ≠ typeDir)
    (hcap : s.size n ≤ K.length * sfsBlksize) (hoffset : offset ≤ s.size n)
    (hmax : offset + buf.length ≤ ((ndirect + sfsBlkNentry) * sfsBlksize : Nat))
    (hwhole : 0 ≤ offset → NoWholeBlock offset.toNat (offset.toNat + buf.length)) :
    Triple Never (sfsIoNolock n buf offset buf.length true) s fun r t =>
      ∃ K', Stored s n K offset.toNat buf r t K' := by
  have hlimit : (ndirect + sfsBlkNentry) * sfsBlksize ≤ sfsMaxFileSize := by decide
  unfold sfsIoNolock
  rw [triple_bind, triple_derefSin_of hsin, triple_bind, triple_assert_of htype]
  refine triple_ite (fun _ => ⟨K, Stored.nothing h hcap (by omega) fun hret => absurd hret eInval_ne_zero⟩)
    fun hvalid => ?_
  obtain ⟨hneg, -⟩ := not_or.1 hvalid
  have hnonneg : 0 ≤ offset := Int.not_lt.1 hneg
  refine triple_ite (fun heq => ⟨K, Stored.nothing h hcap (by omega) fun _ => ?_⟩) fun hne => ?_
  · exact List.length_eq_zero_iff.1 (by omega)
  · dsimp only
    rw [if_pos rfl]
    have hendpos : min (offset + (buf.length : Int)).toNat sfsMaxFileSize = offset.toNat + buf.length := by omega
    rw [hendpos]
    exact ioParts_write h hcap (by omega) (hwhole hnonneg) rfl (by omega) (by omega)

theorem sfsIoNolock_negative {write : Bool} (hsin : s.sin n = some sin) (htype : sin.din.type ≠ typeDir)
    (hneg : offset < 0) :
    Triple Never (sfsIoNolock n buf offset len write) s fun r t => r = (-eInval, []) ∧ t = s := by
  unfold sfsIoNolock
  rw [triple_bind, triple_derefSin_of hsin, triple_bind, triple_assert_of htype]
  dsimp only
  rw [if_pos (Or.inl hneg), triple_pure]
  exact ⟨rfl, rfl⟩

/-! ## Runs -/

/-- The calls on the data of an inode. -/
inductive FileCall where
  | read (n : Nat) (offset : Int) (len : Nat)
  | write (n : Nat) (offset : Int) (data : List UInt8)
  | truncate (n : Nat) (len : Int)

/-- The inode of a call. -/
def FileCall.inode : FileCall → Nat
  | FileCall.read n _ _ => n
  | FileCall.write n _ _ => n
  | FileCall.truncate n _ => n

/-- The call sets the size of the file. -/
def FileCall.Truncates : FileCall → Prop
  | FileCall.truncate _ _ => True
  | _ => False

/-- A call, with what it returns and the bytes it moves. -/
def fileCall : FileCall → SfsM (Int × List UInt8)
  | FileCall.read n offset len => sfsIoNolock n [] offset len false
  | FileCall.write n offset data => sfsIoNolock n data offset data.length true
  | FileCall.truncate n len => sfsTruncfile n len >>= fun ret => pure (ret, [])

/-- What a call may return. Only a call that fails may move less than it is asked to, and then from the front. -/
def FileData.Returns (f : FileData) : FileCall → Int × List UInt8 → Prop
  | FileCall.read _ offset len, r => (offset < 0 → r = (-eInval, [])) ∧ r.2 <+: f.read offset.toNat len ∧
      (r.1 = 0 → r.2 = f.read offset.toNat len)
  | FileCall.write _ offset data, r => (offset < 0 → r = (-eInval, [])) ∧ r.2 <+: data ∧ (r.1 = 0 → r.2 = data)
  | FileCall.truncate _ len, r => 0 ≤ len ∧ r = (0, [])

/-- The file after a call. -/
def FileData.after (f : FileData) : FileCall → Int × List UInt8 → FileData
  | FileCall.read _ _ _, _ => f
  | FileCall.write _ offset _, r => f.write offset.toNat r.2
  | FileCall.truncate _ len, _ => f.truncate len.toNat

/-- Files that are no more than their bytes. -/
def FileSystem (F : Nat → FileData) (c : FileCall × Int × List UInt8) (G : Nat → FileData) : Prop :=
  (F c.1.inode).Returns c.1 c.2 ∧ G = Function.update F c.1.inode ((F c.1.inode).after c.1 c.2)

/-- How many bytes the blocks of an inode can hold. -/
def maxBytes : Nat := (ndirect + sfsBlkNentry) * sfsBlksize

/-- The calls that are meant here, on a file with the size: there is no whole block in a read or a write, a write
begins inside the file or at its end, and no byte is beyond the blocks that an inode can have. The end of a read is
an `off_t`. -/
def FileCall.Fits (size : Nat) : FileCall → Prop
  | FileCall.read _ offset len => 0 ≤ offset → offset + len < 2 ^ 63 ∧
      NoWholeBlock offset.toNat (min (offset.toNat + len) size)
  | FileCall.write _ offset data => 0 ≤ offset → offset ≤ size ∧ offset + data.length ≤ maxBytes ∧
      NoWholeBlock offset.toNat (offset.toNat + data.length)
  | FileCall.truncate _ len => len ≤ maxBytes

/-- The inode is in memory, and is no directory. -/
def Sfs.IsFile (s : Sfs) (n : Nat) : Prop := ∃ sin, s.sin n = some sin ∧ sin.din.type ≠ typeDir

/-- The inode has as many blocks as its size needs. A failed write may leave one more. -/
def Sfs.Counted (s : Sfs) (n : Nat) : Prop := ∃ sin, s.sin n = some sin ∧ blocksOf sin.din.size = sin.din.blocks

/-- A call that is meant here. -/
structure FileCall.Meant (s : Sfs) (call : FileCall) : Prop where
  file : s.IsFile call.inode
  fits : call.Fits (s.size call.inode)
  counted : call.Truncates → s.Counted call.inode

/-- A call returns. A truncation that fails is not meant: it leaves any of the blocks, and the size as it was. -/
structure FileStep (s : Sfs) (c : FileCall × Int × List UInt8) (t : Sfs) : Prop where
  meant : c.1.Meant s
  returns : fileCall c.1 s = Except.ok (c.2, t)
  truncated : c.1.Truncates → c.2.1 = 0

/-- What a call has done to its file. -/
structure FileCall.Did (call : FileCall) (s : Sfs) (K : List Nat) (r : Int × List UInt8) (t : Sfs) (K' : List Nat) :
    Prop where
  returns : (s.fileData call.inode K).Returns call r
  data : t.fileData call.inode K' = (s.fileData call.inode K).after call r
  cap : t.size call.inode ≤ K'.length * sfsBlksize
  counted : r.1 = 0 → blocksOf (s.size call.inode) = K.length → blocksOf (t.size call.inode) = K'.length

/-- A call touches its own inode only, and unless it is a truncation that fails, it does what it is for. -/
def FileCall.Acts (call : FileCall) (s : Sfs) (K : List Nat) (r : Int × List UInt8) (t : Sfs) : Prop :=
  ∃ K', Touches s call.inode K t K' ∧ ((call.Truncates → r.1 = 0) → call.Did s K r t K')

theorem blocksOf_max (a b : Nat) : blocksOf (max a b) = max (blocksOf a) (blocksOf b) := by
  unfold blocksOf sfsBlksize
  omega

theorem read_acts (h : Maps s n K) (hfile : s.IsFile n) (hcap : s.size n ≤ K.length * sfsBlksize)
    (hfits : (FileCall.read n offset len).Fits (s.size n)) :
    Triple Never (fileCall (FileCall.read n offset len)) s ((FileCall.read n offset len).Acts s K) := by
  obtain ⟨sin, hsin, htype⟩ := hfile
  have hread : Triple Never (sfsIoNolock n [] offset len false) s fun r t => Quiet s t ∧
      r.2 <+: (s.fileData n K).read offset.toNat len ∧ (r.1 = 0 → r.2 = (s.fileData n K).read offset.toNat len) :=
    sfsIoNolock_read h hsin htype hcap fun hnonneg => (hfits hnonneg).2
  have hnegative : Triple Never (sfsIoNolock n [] offset len false) s fun r _ => offset < 0 → r = (-eInval, []) := by
    rcases Int.lt_or_le offset 0 with hneg | hnonneg
    · exact (sfsIoNolock_negative hsin htype hneg).mono fun r t hr _ => hr.1
    · exact hread.mono fun r t _ hneg => absurd hneg (Int.not_lt.2 hnonneg)
  refine (hread.and hnegative).mono fun r t hr => ?_
  obtain ⟨⟨hquiet, hfront, hall⟩, hneg⟩ := hr
  have hsize : t.size n = s.size n := size_congr (congrFun hquiet.sin_eq n)
  have hbytes : t.fileBytes K = s.fileBytes K := fileBytes_congr fun b _ => congrFun hquiet.disk b
  refine ⟨K, (hquiet.grows h.free).touches h, fun _ => ⟨⟨hneg, hfront, hall⟩, ?_, ?_, fun _ hcount => ?_⟩⟩
  · exact congrArg₂ FileData.mk hsize hbytes
  · exact hsize.trans_le hcap
  · exact (congrArg blocksOf hsize).trans hcount

theorem write_acts {data : List UInt8} (h : Maps s n K) (hfile : s.IsFile n) (hcap : s.size n ≤ K.length * sfsBlksize)
    (hfits : (FileCall.write n offset data).Fits (s.size n)) :
    Triple Never (fileCall (FileCall.write n offset data)) s ((FileCall.write n offset data).Acts s K) := by
  obtain ⟨sin, hsin, htype⟩ := hfile
  rcases Int.lt_or_le offset 0 with hneg | hnonneg
  · -- the call refuses the offset before it looks at the file
    refine (sfsIoNolock_negative hsin htype hneg).mono fun r t hr => ?_
    obtain ⟨rfl, rfl⟩ := hr
    refine ⟨K, Touches.refl h, fun _ => ⟨⟨fun _ => rfl, List.nil_prefix, fun hzero => absurd hzero eInval_ne_zero⟩,
      ?_, hcap, fun hzero => absurd hzero eInval_ne_zero⟩⟩
    refine congrArg₂ FileData.mk ?_ (put_nil _ _).symm
    rw [Int.toNat_of_nonpos hneg.le]
    exact (Nat.max_zero _).symm
  · obtain ⟨hle, hmax, hwhole⟩ := hfits hnonneg
    refine (sfsIoNolock_write h hsin htype hcap hle hmax fun _ => hwhole).mono fun r t hr => ?_
    obtain ⟨K', hstored⟩ := hr
    refine ⟨K', hstored.touches, fun _ => ⟨⟨fun hneg => absurd hneg (Int.not_lt.2 hnonneg), hstored.front,
      fun hzero => (hstored.all hzero).1⟩, congrArg₂ FileData.mk hstored.size hstored.bytes, hstored.cap,
      fun hzero (hcount : blocksOf (s.size n) = K.length) => ?_⟩⟩
    obtain ⟨hdata, hlength⟩ := hstored.all hzero
    calc blocksOf (t.size n) = blocksOf (max (s.size n) (offset.toNat + data.length)) := by rw [hstored.size, hdata]
      _ = max (blocksOf (s.size n)) (blocksOf (offset.toNat + data.length)) := blocksOf_max _ _
      _ = K'.length := by rw [hcount, hlength]

theorem truncate_acts {size : Int} (h : Maps s n K) (hcount : blocksOf (s.size n) = K.length)
    (hfits : (FileCall.truncate n size).Fits (s.size n)) :
    Triple Never (fileCall (FileCall.truncate n size)) s ((FileCall.truncate n size).Acts s K) := by
  refine (sfsTruncfile_spec size h hcount hfits).bind fun ret t ht => ?_
  obtain ⟨K', htouches, hdone⟩ := ht
  refine ⟨K', htouches, fun hzero => ?_⟩
  obtain ⟨hnonneg, hsize, hlength, hbytes⟩ := hdone (hzero trivial)
  refine ⟨⟨hnonneg, congrArg (fun ret => (ret, [])) (hzero trivial)⟩, ?_, ?_, fun _ _ => ?_⟩
  · exact congrArg₂ FileData.mk hsize (hlength ▸ hbytes)
  · change t.size n ≤ _
    rw [hsize, hlength]
    unfold blocksOf sfsBlksize
    omega
  · change blocksOf (t.size n) = _
    rw [hsize, hlength]

theorem Maps.counted (h : Maps s n K) (hcount : s.Counted n) : blocksOf (s.size n) = K.length := by
  obtain ⟨sin, hsin, hblocks⟩ := hcount
  obtain ⟨sin', hsin', hlist⟩ := h.inode
  cases hsin.symm.trans hsin'
  rw [size_of_sin hsin, hblocks, hlist.blocks]

theorem Maps.counted_of (h : Maps s n K) (hcount : blocksOf (s.size n) = K.length) : s.Counted n := by
  obtain ⟨sin, hsin, hlist⟩ := h.inode
  refine ⟨sin, hsin, ?_⟩
  rw [hlist.blocks, ← hcount, size_of_sin hsin]

theorem Sfs.IsFile.ne_none (h : s.IsFile n) : s.sin n ≠ none := by
  obtain ⟨sin, hsin, -⟩ := h
  rw [hsin]
  exact Option.some_ne_none sin

/-- What one call does. -/
theorem FilesOk.call {call : FileCall} (h : FilesOk s L) (hmeant : call.Meant s) :
    Triple Never (fileCall call) s (call.Acts s (L call.inode)) := by
  have hmaps := h.maps call.inode hmeant.file.ne_none
  have hcap : s.size call.inode ≤ (L call.inode).length * sfsBlksize := by
    obtain ⟨sin, hsin, htype⟩ := hmeant.file
    exact h.cap call.inode sin hsin htype
  cases call with
  | read n offset len => exact read_acts hmaps hmeant.file hcap hmeant.fits
  | write n offset data => exact write_acts hmaps hmeant.file hcap hmeant.fits
  | truncate n size => exact truncate_acts hmaps (hmaps.counted (hmeant.counted trivial)) hmeant.fits

/-- Nothing has changed but the inode, blocks that belong to it, and blocks that were not in use. -/
def Sfs.SameBeside (s : Sfs) (n : Nat) (t : Sfs) : Prop :=
  (∀ m, m ≠ n → t.sin m = s.sin m) ∧ ∀ b, Used s b → ¬ s.Belongs n b → Used t b ∧ t.disk b = s.disk b

/-- All files have as many blocks as their sizes need. -/
def Sfs.AllCounted (s : Sfs) : Prop := ∀ n, s.IsFile n → s.Counted n

variable {F G : Nat → FileData} {c : FileCall × Int × List UInt8}

theorem Holds.step (h : Holds s F) (hstep : FileStep s c t) : ∃ G, FileSystem F c G ∧ Holds t G := by
  obtain ⟨L, hok, hdata⟩ := h
  have hsome := hstep.meant.file.ne_none
  obtain ⟨K, htouches, hdone⟩ := (hok.call hstep.meant).of_ok hstep.returns
  have hdid := hdone hstep.truncated
  obtain ⟨hok', hothers⟩ := hok.touches hsome htouches hdid.cap
  have hfile := hdata c.1.inode hsome
  refine ⟨Function.update F c.1.inode ((F c.1.inode).after c.1 c.2), ⟨?_, rfl⟩,
    Function.update L c.1.inode K, hok', fun m hm => ?_⟩
  · rw [hfile]
    exact hdid.returns
  · by_cases heq : m = c.1.inode
    · rw [heq, Function.update_self, Function.update_self, hfile]
      exact hdid.data.symm
    · rw [Function.update_of_ne heq, Function.update_of_ne heq, hothers m heq hm]
      exact hdata m (htouches.others m heq ▸ hm)

/-- A call that does not fail keeps the number of the blocks right. -/
theorem Holds.counted (h : Holds s F) (hstep : FileStep s c t) (hzero : c.2.1 = 0) (hall : s.AllCounted) :
    t.AllCounted := by
  obtain ⟨L, hok, -⟩ := h
  have hmaps := hok.maps c.1.inode hstep.meant.file.ne_none
  obtain ⟨K, htouches, hdone⟩ := (hok.call hstep.meant).of_ok hstep.returns
  intro m hm
  by_cases heq : m = c.1.inode
  · rw [heq]
    exact htouches.maps.counted_of
      ((hdone hstep.truncated).counted hzero (hmaps.counted (hall c.1.inode hstep.meant.file)))
  · have hsame := htouches.others m heq
    unfold Sfs.IsFile at hm
    unfold Sfs.Counted
    rw [hsame] at hm ⊢
    exact hall m hm

theorem Holds.returns {call : FileCall} (h : Holds s F) (hmeant : call.Meant s) :
    ∃ r t, fileCall call s = Except.ok (r, t) ∧ s.SameBeside call.inode t := by
  obtain ⟨L, hok, -⟩ := h
  obtain ⟨r, t, hcall, K, htouches, -⟩ := exists_ok_of_triple (hok.call hmeant)
  have hmaps := hok.maps call.inode hmeant.file.ne_none
  exact ⟨r, t, hcall, htouches.others, fun b hb hout => htouches.kept b hb fun hown => hout (hmaps.belongs_iff.2 hown)⟩

/-- Two bytes are written into an empty file, and read. -/
def hello : List (FileCall × Int × List UInt8) :=
  [(FileCall.write 1 0 [72, 105], 0, [72, 105]), (FileCall.read 1 0 512, 0, [72, 105])]

/-- `eightBlocks` with the two bytes. -/
def eightBlocksWritten : Sfs :=
  { eightBlocksAppended with
    disk := Function.update eightBlocksAppended.disk 2 (Block.put (fun _ => 0) 0 [72, 105])
    sin := Function.update eightBlocksAppended.sin 1 (some { emptySin with
      din := { emptySin.din with size := 2, direct := Function.update emptySin.din.direct 0 2, blocks := 1 }
      dirty := true }) }

theorem eightBlocks_write : fileCall (FileCall.write 1 0 [72, 105]) eightBlocks =
    Except.ok ((0, [72, 105]), eightBlocksWritten) := rfl

theorem eightBlocks_read : fileCall (FileCall.read 1 0 512) eightBlocksWritten =
    Except.ok ((0, [72, 105]), eightBlocksWritten) := rfl

theorem eightBlocks_ne_none {n : Nat} (h : eightBlocks.sin n ≠ none) : n = 1 := by
  by_contra hne
  exact h (if_neg hne)

theorem eightBlocks_holds : Holds eightBlocks fun _ => ⟨0, fun _ => 0⟩ := by
  refine ⟨fun _ => [], ⟨fun n hn => ?_, fun m n hmn hm hn => ?_, fun n sin hsin _ => ?_⟩, fun n hn => ?_⟩
  · exact eightBlocks_ne_none hn ▸ eightBlocks_maps
  · exact absurd ((eightBlocks_ne_none hm).trans (eightBlocks_ne_none hn).symm) hmn
  · have hone : n = 1 := eightBlocks_ne_none (hsin ▸ Option.some_ne_none sin)
    rw [hone]
    exact Nat.zero_le _
  · rw [eightBlocks_ne_none hn]
    rfl

theorem noWholeBlock_of_lt {offset endpos : Nat} (h : endpos < sfsBlksize) : NoWholeBlock offset endpos := by
  intro b _
  unfold sfsBlksize at *
  omega

end Vfs
end TriOS
