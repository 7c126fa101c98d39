import Mathlib

/-!
# mmu.h — page-table entries

An entry is a 64-bit word: the number of a page frame from bit 10 on, and ten flags below it. An
address is split into two directory indices, a table index and an offset.
-/

namespace TriOS

/-- `PGSIZE` -/
def pgSize : Nat := 4096

/-- `NPTEENTRY`, and the number of entries of a directory. -/
def nPteEntry : Nat := 512

/-- `PTSIZE`: the bytes that a page table maps. -/
def ptSize : Nat := 0x200000

/-- `PDSIZE`: the bytes that a directory of level 0 maps. -/
def pdSize : Nat := 0x40000000

/-- `USERBASE` -/
def userBase : Nat := 0x200000

/-- `USERTOP` -/
def userTop : Nat := 0x80000000

/-- `PDX1` -/
def pdx1 (la : Nat) : Nat := la / pdSize % nPteEntry

/-- `PDX0` -/
def pdx0 (la : Nat) : Nat := la / ptSize % nPteEntry

/-- `PTX` -/
def ptx (la : Nat) : Nat := la / pgSize % nPteEntry

/-- `ROUNDDOWN` -/
def roundDown (a n : Nat) : Nat := a - a % n

/-- `ROUNDUP`, in 64-bit arithmetic. -/
def roundUp (a n : Nat) : Nat := roundDown ((a + n - 1) % 2 ^ 64) n

/-- `USER_ACCESS` -/
def UserAccess (start stop : Nat) : Prop :=
  userBase ≤ start ∧ start < stop ∧ stop ≤ userTop

instance (start stop : Nat) : Decidable (UserAccess start stop) :=
  inferInstanceAs (Decidable (_ ∧ _ ∧ _))

/-- `pte_t` and `pde_t` -/
abbrev Pte := UInt64

/-- `PTE_V` -/
def pteV : UInt64 := 0x001

/-- `PTE_R` -/
def pteR : UInt64 := 0x002

/-- `PTE_W` -/
def pteW : UInt64 := 0x004

/-- `PTE_X` -/
def pteX : UInt64 := 0x008

/-- `PTE_U` -/
def pteU : UInt64 := 0x010

/-- `PTE_USER` -/
def pteUser : UInt64 := pteR ||| pteW ||| pteX ||| pteU ||| pteV

/-- The ten flags of an entry. -/
def flagMask : UInt64 := 0x3FF

/-- Permissions: a word of flags. -/
structure Perm where
  bits : UInt64
  flags : bits &&& flagMask = bits

/-- `pte & PTE_V` -/
def Pte.Valid (pte : Pte) : Prop := pte &&& pteV ≠ 0

instance (pte : Pte) : Decidable pte.Valid := inferInstanceAs (Decidable (_ ≠ _))

/-- `pte_create` -/
def pteCreate (ppn : Nat) (type : UInt64) : Pte :=
  UInt64.ofNat ppn <<< 10 ||| pteV ||| type

/-- `PPN(PTE_ADDR(pte))` -/
def ptePpn (pte : Pte) : Nat :=
  (((pte &&& ~~~flagMask) <<< 2) >>> 12).toNat

/-- `*ptep & PTE_USER` -/
def userPerm (pte : Pte) : Perm :=
  { bits := pte &&& pteUser
    flags := by rw [UInt64.and_assoc, show pteUser &&& flagMask = pteUser by decide] }

/-! ## The fields of an entry -/

theorem not_valid_zero : ¬ Pte.Valid 0 := by decide

theorem valid_pteCreate (ppn : Nat) (type : UInt64) : (pteCreate ppn type).Valid := by
  have hbit : pteCreate ppn type &&& pteV = pteV := by
    unfold pteCreate
    apply UInt64.toBitVec_inj.1
    ext i hi
    simp only [UInt64.toBitVec_and, UInt64.toBitVec_or, BitVec.getElem_and, BitVec.getElem_or]
    cases pteV.toBitVec[i] <;> simp
  rw [Pte.Valid, hbit]
  decide

theorem flagMask_bit (i : Nat) : flagMask.toBitVec.getLsbD i = decide (i < 10) := by
  by_cases hi : i < 64
  · interval_cases i <;> decide
  · rw [BitVec.getLsbD_of_ge _ _ (by omega)]
    simp
    omega

theorem pteUser_bit (i : Nat) : pteUser.toBitVec.getLsbD i = decide (i < 5) := by
  by_cases hi : i < 64
  · interval_cases i <;> decide
  · rw [BitVec.getLsbD_of_ge _ _ (by omega)]
    simp
    omega

theorem pteV_bit (i : Nat) : pteV.toBitVec.getLsbD i = decide (i = 0) := by
  change BitVec.getLsbD 1#64 i = _
  simp

/-- The bits of a new entry: the frame number from bit 10 on, then the flags. -/
theorem pteCreate_bit (ppn : Nat) (type : UInt64) (i : Nat) :
    (pteCreate ppn type).toBitVec.getLsbD i =
      (decide (10 ≤ i ∧ i < 64) && ppn.testBit (i - 10) || decide (i = 0) ||
        type.toBitVec.getLsbD i) := by
  have h10 : (10 : UInt64).toBitVec % 64 = 10#64 := by decide
  simp only [pteCreate, UInt64.toBitVec_or, UInt64.toBitVec_shiftLeft, h10, UInt64.toBitVec_ofNat',
    BitVec.shiftLeft_eq', BitVec.getLsbD_or, BitVec.getLsbD_shiftLeft, BitVec.getLsbD_ofNat, pteV_bit,
    BitVec.reduceToNat]
  by_cases hlow : 10 ≤ i
  · by_cases hhigh : i < 64
    · have hsub : i - 10 < 64 := by omega
      simp [hlow, hhigh, hsub, Nat.not_lt.2 hlow]
    · simp [hhigh]
  · simp [hlow, Nat.lt_of_not_le hlow]

/-- The frame of a new entry. -/
theorem ptePpn_pteCreate {ppn : Nat} (h : ppn < 2 ^ 44) (perm : Perm) :
    ptePpn (pteCreate ppn perm.bits) = ppn := by
  have hperm : ∀ i, 10 ≤ i → perm.bits.toBitVec.getLsbD i = false := by
    intro i hi
    rw [← perm.flags, UInt64.toBitVec_and, BitVec.getLsbD_and, flagMask_bit]
    simp
    omega
  have hword : ((pteCreate ppn perm.bits &&& ~~~flagMask) <<< 2) >>> 12 = UInt64.ofNat ppn := by
    apply UInt64.toBitVec_inj.1
    apply BitVec.eq_of_getLsbD_eq
    intro i hi
    have h12 : (12 : UInt64).toBitVec % 64 = 12#64 := by decide
    have h2 : (2 : UInt64).toBitVec % 64 = 2#64 := by decide
    have hindex : 12 + i - 2 = i + 10 := by omega
    simp only [UInt64.toBitVec_shiftRight, UInt64.toBitVec_shiftLeft, UInt64.toBitVec_and,
      UInt64.toBitVec_not, h12, h2, UInt64.toBitVec_ofNat', BitVec.shiftLeft_eq',
      BitVec.ushiftRight_eq', BitVec.getLsbD_ushiftRight, BitVec.getLsbD_shiftLeft, BitVec.getLsbD_and,
      BitVec.getLsbD_not, BitVec.getLsbD_ofNat, flagMask_bit, BitVec.reduceToNat, hindex, pteCreate_bit,
      hperm (i + 10) (by omega)]
    by_cases hlow : i < 52
    · have h1 : 12 + i < 64 := by omega
      have h3 : i + 10 < 64 := by omega
      have h4 : ¬ 12 + i < 2 := by omega
      simp [h1, h3, h4, hi]
    · have htop : ppn.testBit i = false :=
        Nat.testBit_lt_two_pow (h.trans_le (Nat.pow_le_pow_right (by omega) (by omega)))
      have h1 : ¬ 12 + i < 64 := by omega
      simp [h1, htop]
  rw [ptePpn, hword]
  exact UInt64.toNat_ofNat_of_lt' (h.trans (by decide))

/-- An entry that is made with the permissions of a valid one has the same permissions. -/
theorem pteCreate_userPerm (ppn : Nat) {pte : Pte} (h : pte.Valid) :
    pteCreate ppn (userPerm pte).bits &&& pteUser = pte &&& pteUser := by
  have hzero : pte.toBitVec.getLsbD 0 = true := by
    by_contra hc
    refine h (UInt64.toBitVec_inj.1 (BitVec.eq_of_getLsbD_eq fun i hi => ?_))
    rw [UInt64.toBitVec_and, BitVec.getLsbD_and, pteV_bit]
    by_cases hi0 : i = 0
    · subst hi0
      simpa using hc
    · simp [hi0]
  apply UInt64.toBitVec_inj.1
  apply BitVec.eq_of_getLsbD_eq
  intro i hi
  simp only [userPerm, UInt64.toBitVec_and, BitVec.getLsbD_and, pteUser_bit, pteCreate_bit]
  by_cases hlow : i < 5
  · have h10 : ¬ 10 ≤ i := by omega
    by_cases hi0 : i = 0
    · subst hi0
      simp [hzero]
    · simp [hlow, h10, hi0]
  · simp [hlow]

end TriOS
