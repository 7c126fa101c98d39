import TriOS.Fs.BlockMap
import TriOS.Mm.UserMem

/-!
# proc.c — the arguments of a program

`copy_kargv` copies the argument strings into buffers of the kernel, and the end of `load_icode` puts
them on the stack of the new program: the strings at the top, below them the array of pointers, and
below that the number of the arguments.
-/

namespace TriOS

open Outcome

open Vfs (leNat leBytes Block)

/-- `EXEC_MAX_ARG_NUM` -/
def execMaxArgNum : Nat := 32

/-- `EXEC_MAX_ARG_LEN` -/
def execMaxArgLen : Nat := 4095

/-- `USTACKTOP` -/
def ustackTop : Nat := userTop

/-- `USTACKSIZE` -/
def ustackSize : Nat := 256 * pgSize

/-- The pointer that is stored at an address. -/
def loadPointer (mem : Nat → UInt8) (addr : Nat) : Nat :=
  leNat (Block.bytes mem addr 8)

/-! ## copy_kargv -/

/-- The loop of `copy_kargv`, from argument `i` on. `alloc i` says whether `kmalloc` has memory for
the buffer of argument `i`, and `kargv i` is what the buffer holds. -/
def copyKargvLoop (mem : Nat → UInt8) (bound : Nat) (alloc : Nat → Bool) (argv : Nat) :
    Nat → Nat → Option MmStruct → (Nat → Nat → UInt8) →
      Outcome (Int × Option MmStruct × (Nat → Nat → UInt8))
  | 0, _, mm, kargv => pure (0, mm, kargv)
  | todo + 1, i, mm, kargv =>
      if alloc i = false then pure (-eNoMem, mm, kargv)
      else do
        let (ok, c) ←
          copyString mem bound mm (kargv i) (loadPointer mem (argv + 8 * i)) (execMaxArgLen + 1)
        if ok = false then pure (-eInval, c.mm, kargv)
        else copyKargvLoop mem bound alloc argv todo (i + 1) c.mm (Function.update kargv i c.dst)

/-- `copy_kargv` -/
def copyKargv (mem : Nat → UInt8) (bound : Nat) (alloc : Nat → Bool) (mm : Option MmStruct)
    (argc argv : Nat) (kargv : Nat → Nat → UInt8) :
    Outcome (Int × Option MmStruct × (Nat → Nat → UInt8)) := do
  let (ok, mm) ← userMemCheck bound mm argv (8 * argc) false
  if ok = false then pure (-eInval, mm, kargv)
  else copyKargvLoop mem bound alloc argv argc 0 mm kargv

/-! ## The end of load_icode -/

/-- `strcpy` -/
def strcpy : Nat → (Nat → UInt8) → Nat → (Nat → UInt8) → Nat → Outcome (Nat → UInt8)
  | 0, _, _, _, _ => fuel
  | bound + 1, mem, p, src, i =>
      let mem := Function.update mem p (src i)
      if src i = 0 then pure mem else strcpy bound mem (p + 1) src (i + 1)

/-- `argv_size` after `n` arguments, a 32-bit number. -/
def argvSize (kargv : Nat → Nat → UInt8) : Nat → Nat
  | 0 => 0
  | n + 1 => (argvSize kargv n + (strnlen (kargv n) 0 (execMaxArgLen + 1) + 1)) % 2 ^ 32

/-- The second loop over the arguments, after `n` of them: the memory and `argv_size`. -/
def placeArgs (bound : Nat) (kargv : Nat → Nat → UInt8) (stacktop uargv : Nat) (mem : Nat → UInt8) :
    Nat → Outcome ((Nat → UInt8) × Nat)
  | 0 => pure (mem, 0)
  | n + 1 => do
      let (mem, size) ← placeArgs bound kargv stacktop uargv mem n
      let mem ← strcpy bound mem (stacktop + size) (kargv n) 0
      pure (Block.put mem (uargv + 8 * n) (leBytes 8 (stacktop + size)),
        (size + (strnlen (kargv n) 0 (execMaxArgLen + 1) + 1)) % 2 ^ 32)

/-- The part of `load_icode` that sets up `uargc` and `uargv`: the memory, `uargv` and the final
stack pointer. -/
def setupArgs (bound : Nat) (kargv : Nat → Nat → UInt8) (argc : Nat) (mem : Nat → UInt8) :
    Outcome ((Nat → UInt8) × Nat × Nat) := do
  let stacktop := (ustackTop + 2 ^ 64 - (argvSize kargv argc / 8 + 1) * 8) % 2 ^ 64
  let uargv := (stacktop + 2 ^ 64 - argc * 8) % 2 ^ 64
  let (mem, _) ← placeArgs bound kargv stacktop uargv mem argc
  let stacktop := (uargv + 2 ^ 64 - 4) % 2 ^ 64
  pure (Block.put mem stacktop (leBytes 4 argc), uargv, stacktop)

/-! ## Strings -/

variable {mem stack : Nat → UInt8} {src dst : Nat → UInt8} {kargv : Nat → Nat → UInt8}
  {len : Nat → Nat} {argc argv i n p bound : Nat} {alloc : Nat → Bool} {mm mm' : Option MmStruct}

/-- A buffer holds a string of `n` bytes and its end. -/
structure IsString (buf : Nat → UInt8) (n : Nat) : Prop where
  nul : buf n = 0
  first : ∀ j, j < n → buf j ≠ 0

theorem IsString.strnlen (h : IsString src n) (hn : n ≤ execMaxArgLen) :
    strnlen src 0 (execMaxArgLen + 1) = n := by
  have hle : TriOS.strnlen src 0 (execMaxArgLen + 1) ≤ n := by
    by_contra hlt
    have hne := strnlen_before (Nat.not_le.1 hlt)
    rw [Nat.zero_add] at hne
    exact hne h.nul
  refine Nat.le_antisymm hle (Nat.not_lt.1 fun hlt => ?_)
  have hnul := @strnlen_nul src 0 (execMaxArgLen + 1) (by omega)
  rw [Nat.zero_add] at hnul
  exact h.first _ hlt hnul

/-- `strcpy` copies the string with its end, and writes nothing else. -/
theorem strcpy_spec (hnul : src (i + n) = 0) (hfirst : ∀ j, j < n → src (i + j) ≠ 0) :
    ∃ mem', (∀ bound, n < bound → strcpy bound mem p src i = done mem') ∧
      (∀ j, j ≤ n → mem' (p + j) = src (i + j)) ∧ ∀ x, x < p ∨ p + n < x → mem' x = mem x := by
  induction n generalizing mem p i with
  | zero =>
      refine ⟨Function.update mem p (src i), fun bound hbound => ?_, fun j hj => ?_, fun x hx => ?_⟩
      · obtain ⟨k, rfl⟩ := Nat.exists_eq_add_of_lt hbound
        rw [Nat.add_zero] at hnul
        rw [strcpy]
        exact if_pos hnul
      · obtain rfl := Nat.le_zero.1 hj
        exact Function.update_self _ _ _
      · exact Function.update_of_ne (by omega) _ _
  | succ n ih =>
      have hhead : src i ≠ 0 := hfirst 0 (Nat.succ_pos n)
      obtain ⟨mem', hrun, hcopy, hout⟩ := @ih (Function.update mem p (src i)) (i + 1) (p + 1)
        (by rw [← hnul]; congr 1; omega)
        (fun j hj => by
          have hne := hfirst (j + 1) (by omega)
          have hsum : i + 1 + j = i + (j + 1) := by omega
          rwa [hsum])
      refine ⟨mem', fun bound hbound => ?_, fun j hj => ?_, fun x hx => ?_⟩
      · obtain ⟨k, rfl⟩ := Nat.exists_eq_add_of_lt hbound
        rw [strcpy]
        rw [if_neg hhead]
        exact hrun _ (by omega)
      · cases j with
        | zero =>
            rw [Nat.add_zero, hout p (Or.inl (Nat.lt_succ_self p)), Function.update_self]
            rfl
        | succ j =>
            have hcopy' := hcopy j (by omega)
            have hsum : p + 1 + j = p + (j + 1) := by omega
            have hsum' : i + 1 + j = i + (j + 1) := by omega
            rwa [hsum, hsum'] at hcopy'
      · rw [hout x (by omega)]
        exact Function.update_of_ne (by omega) _ _

/-- What `copy_string` leaves in the buffer when it returns true, from the byte `at_` on: a string of
`n` bytes that it has read at `src`. -/
structure FullCopy (mem dst : Nat → UInt8) (at_ src maxn n : Nat) : Prop where
  lt : n < maxn
  bytes : ∀ j, j ≤ n → dst (at_ + j) = mem ((src + j) % 2 ^ 64)
  string : IsString (fun j => dst (at_ + j)) n

theorem copyStringLoop_true {c c' : StringCopy} {at_ src maxn part : Nat}
    (hpage : (src + part) % pgSize = 0) (hword : src + part ≤ 2 ^ 64)
    (hrun : copyStringLoop mem bound c at_ src maxn part = done (true, c')) :
    (∃ n, FullCopy mem c'.dst at_ src maxn n) ∧ ∀ i, i < at_ → c'.dst i = c.dst i := by
  induction bound generalizing c at_ src maxn part with
  | zero => cases hrun
  | succ bound ih =>
      rw [copyStringLoop] at hrun
      obtain ⟨⟨ok, mm'⟩, _, hrun⟩ := bind_eq_done.1 hrun
      have hclamp : (if maxn < part then maxn else part) = min part maxn := by
        split <;> omega
      dsimp only at hrun
      rw [hclamp] at hrun
      split at hrun
      · cases hrun
      split at hrun
      next hend =>
        -- The end of the string is in this fragment.
        cases hrun
        refine ⟨⟨TriOS.strnlen mem src (min part maxn), by omega, fun j hj => ?_, ?_, fun j hj => ?_⟩,
          fun i hi => memcpyTo_outside (Or.inl hi)⟩
        · have hlow : (src + j) % 2 ^ 64 = src + j := Nat.mod_eq_of_lt (by omega)
          rw [hlow]
          simp only [StringCopy.copy, StringCopy.scan, memcpyTo]
          rw [if_pos (by omega), Nat.add_sub_cancel_left]
        · simp only [StringCopy.copy, StringCopy.scan, memcpyTo]
          rw [if_pos (by omega), Nat.add_sub_cancel_left]
          exact strnlen_nul hend
        · simp only [StringCopy.copy, StringCopy.scan, memcpyTo]
          rw [if_pos (by omega), Nat.add_sub_cancel_left]
          exact strnlen_before hj
      next hend =>
        split at hrun
        · cases hrun
        next hlast =>
        have hmin : min part maxn = part := by omega
        rw [hmin] at hrun hend
        have hpos : part ≤ maxn := by omega
        have hpage' : (src + part) % 2 ^ 64 % pgSize = 0 := by
          unfold pgSize at hpage ⊢
          omega
        obtain ⟨⟨n, hn⟩, hold⟩ := ih (by rw [Nat.add_mod_right]; exact hpage') (by
          unfold pgSize at hpage' ⊢
          omega) hrun
        have hfront : ∀ j, j < part → c'.dst (at_ + j) = mem (src + j) := by
          intro j hj
          rw [hold _ (by omega)]
          simp only [StringCopy.copy, StringCopy.scan, memcpyTo]
          rw [if_pos (by omega), Nat.add_sub_cancel_left]
        have hback : ∀ j, part ≤ j → at_ + part + (j - part) = at_ + j := by omega
        refine ⟨⟨part + n, ?_, fun j hj => ?_, ?_, fun j hj => ?_⟩, fun i hi => ?_⟩
        · have := hn.lt
          omega
        · by_cases hin : j < part
          · have hlow : (src + j) % 2 ^ 64 = src + j := Nat.mod_eq_of_lt (by omega)
            rw [hfront j hin, hlow]
          · have hcopy := hn.bytes (j - part) (by omega)
            rw [hback j (by omega)] at hcopy
            rw [hcopy]
            congr 1
            omega
        · have hnul : c'.dst (at_ + part + n) = 0 := hn.string.nul
          rwa [Nat.add_assoc] at hnul
        · by_cases hin : j < part
          · rw [hfront j hin]
            exact strnlen_before (hin.trans_le (Nat.not_lt.1 hend))
          · have hne : c'.dst (at_ + part + (j - part)) ≠ 0 := hn.string.first (j - part) (by omega)
            rwa [hback j (by omega)] at hne
        · rw [hold i (by omega)]
          exact memcpyTo_outside (Or.inl hi)

theorem copyString_true {c : StringCopy} {addr maxn : Nat} (haddr : addr < 2 ^ 64)
    (hrun : copyString mem bound mm dst addr maxn = done (true, c)) :
    ∃ n, FullCopy mem c.dst 0 addr maxn n := by
  unfold copyString at hrun
  have hpage : (addr + (pgSize - addr % pgSize)) % pgSize = 0 ∧
      addr + (pgSize - addr % pgSize) ≤ 2 ^ 64 := by
    unfold pgSize
    omega
  rw [firstPart_eq haddr] at hrun
  exact (copyStringLoop_true hpage.1 hpage.2 hrun).1

theorem loadPointer_lt (mem : Nat → UInt8) (addr : Nat) : loadPointer mem addr < 2 ^ 64 := by
  have hbound : ∀ l : List UInt8, leNat l < 256 ^ l.length := by
    intro l
    induction l with
    | nil => decide
    | cons b l ih =>
        have hb := b.toNat_lt
        rw [leNat, List.length_cons, pow_succ]
        omega
  have h := hbound (Block.bytes mem addr 8)
  rwa [Vfs.length_bytes] at h

/-- The string that argument `i` is, and its length. -/
structure ArgString (mem : Nat → UInt8) (argv : Nat) (kargv : Nat → Nat → UInt8) (i n : Nat) :
    Prop where
  short : n ≤ execMaxArgLen
  copied : ∀ j, j ≤ n → kargv i j = mem ((loadPointer mem (argv + 8 * i) + j) % 2 ^ 64)
  string : IsString (kargv i) n

theorem copyKargvLoop_ok {kargv' : Nat → Nat → UInt8} {todo : Nat}
    (hrun : copyKargvLoop mem bound alloc argv todo i mm kargv = done (0, mm', kargv')) :
    (∀ k, i ≤ k → k < i + todo → ∃ n, ArgString mem argv kargv' k n) ∧
      ∀ k, k < i → kargv' k = kargv k := by
  induction todo generalizing i mm kargv with
  | zero =>
      cases hrun
      exact ⟨fun k hlow hlt => absurd hlow (Nat.not_le.2 hlt), fun _ _ => rfl⟩
  | succ todo ih =>
      rw [copyKargvLoop] at hrun
      split at hrun
      · cases hrun
      obtain ⟨⟨ok, c⟩, hcopy, hrun⟩ := bind_eq_done.1 hrun
      dsimp only at hrun
      split at hrun
      · cases hrun
      next hok =>
        have hok : ok = true := by simpa using hok
        subst hok
        obtain ⟨n, hn⟩ := copyString_true (loadPointer_lt mem _) hcopy
        obtain ⟨hrest, hold⟩ := ih hrun
        have hbuf : kargv' i = c.dst := by
          rw [hold i (Nat.lt_succ_self i)]
          exact Function.update_self _ _ _
        refine ⟨fun k hlow hlt => ?_, fun k hk => ?_⟩
        · rcases Nat.eq_or_lt_of_le hlow with rfl | hlow
          · have hlt := hn.lt
            have hbytes := hn.bytes
            have hstring := hn.string
            simp only [Nat.zero_add] at hbytes hstring
            refine ⟨n, by omega, fun j hj => ?_, ?_⟩
            · rw [hbuf]
              exact hbytes j hj
            · rw [hbuf]
              exact hstring
          · exact hrest k hlow (by omega)
        · rw [hold k (by omega)]
          exact Function.update_of_ne (by omega) _ _

/-- When `copy_kargv` succeeds the buffers hold the argument strings, each of at most
`EXEC_MAX_ARG_LEN` bytes. -/
theorem copyKargv_ok {kargv' : Nat → Nat → UInt8}
    (hrun : copyKargv mem bound alloc mm argc argv kargv = done (0, mm', kargv')) :
    ∀ k, k < argc → ∃ n, ArgString mem argv kargv' k n := by
  unfold copyKargv at hrun
  obtain ⟨⟨ok, mm1⟩, _, hrun⟩ := bind_eq_done.1 hrun
  dsimp only at hrun
  split at hrun
  · cases hrun
  · intro k hk
    exact (copyKargvLoop_ok hrun).1 k (Nat.zero_le k) (by omega)

/-! ## The layout -/

/-- Where the string of argument `n` begins, behind the first one. -/
def argOffset (len : Nat → Nat) : Nat → Nat
  | 0 => 0
  | n + 1 => argOffset len n + (len n + 1)

theorem argOffset_le {k : Nat} (h : k < n) : argOffset len k + (len k + 1) ≤ argOffset len n := by
  induction n with
  | zero => cases h
  | succ n ih =>
      rcases Nat.lt_succ_iff_lt_or_eq.1 h with h | rfl
      · exact (ih h).trans (Nat.le_add_right _ _)
      · exact le_rfl

/-- The buffers of the first `argc` arguments hold strings of lengths `len`. -/
def HoldStrings (kargv : Nat → Nat → UInt8) (len : Nat → Nat) (argc : Nat) : Prop :=
  ∀ k, k < argc → IsString (kargv k) (len k) ∧ len k ≤ execMaxArgLen

theorem HoldStrings.offset_le (h : HoldStrings kargv len argc) (hn : n ≤ argc) :
    argOffset len n ≤ n * (execMaxArgLen + 1) := by
  induction n with
  | zero => exact Nat.zero_le _
  | succ n ih =>
      have hrest := ih (by omega)
      have hlen := (h n (by omega)).2
      rw [argOffset, Nat.succ_mul]
      omega

/-- The sum of the sizes does not wrap. -/
theorem HoldStrings.argvSize (h : HoldStrings kargv len argc) (hargc : argc ≤ execMaxArgNum)
    (hn : n ≤ argc) : argvSize kargv n = argOffset len n := by
  induction n with
  | zero => rfl
  | succ n ih =>
      have hlen := h n (by omega)
      have hle := h.offset_le hn
      have hbound : (n + 1) * (execMaxArgLen + 1) ≤ execMaxArgNum * (execMaxArgLen + 1) :=
        Nat.mul_le_mul_right _ (hn.trans hargc)
      have hsmall : execMaxArgNum * (execMaxArgLen + 1) < 2 ^ 32 := by decide
      rw [TriOS.argvSize, ih (by omega), hlen.1.strnlen hlen.2]
      exact Nat.mod_eq_of_lt (by rw [argOffset] at hle; omega)

theorem bytes_congr {mem' : Nat → UInt8} {a k : Nat}
    (h : ∀ x, a ≤ x → x < a + k → mem' x = mem x) : Block.bytes mem' a k = Block.bytes mem a k := by
  unfold Block.bytes
  apply List.map_congr_left
  intro j hj
  have hlt := List.mem_range.1 hj
  exact h (a + j) (by omega) (by omega)

theorem put_outside {data : List UInt8} {a x : Nat} (h : x < a ∨ a + data.length ≤ x) :
    Block.put mem a data x = mem x := by
  unfold Block.put
  rw [if_neg]
  omega

/-- What the first `n` arguments leave in the memory: the strings from `stacktop` on, pointers to
them from `uargv` on, and nothing else. -/
structure ArgsPlaced (kargv : Nat → Nat → UInt8) (len : Nat → Nat) (stacktop uargv n : Nat)
    (mem mem' : Nat → UInt8) : Prop where
  string : ∀ k, k < n → ∀ j, j ≤ len k → mem' (stacktop + argOffset len k + j) = kargv k j
  pointer : ∀ k, k < n → loadPointer mem' (uargv + 8 * k) = stacktop + argOffset len k
  outside : ∀ x, x < uargv ∨ (uargv + 8 * n ≤ x ∧ x < stacktop) ∨ stacktop + argOffset len n ≤ x →
    mem' x = mem x

theorem placeArgs_spec {stacktop uargv : Nat} (h : HoldStrings kargv len argc)
    (hargc : argc ≤ execMaxArgNum) (hbelow : uargv + 8 * argc ≤ stacktop)
    (hword : stacktop + argOffset len argc < 2 ^ 64) (hn : n ≤ argc) :
    ∃ mem', (∀ bound, execMaxArgLen < bound →
        placeArgs bound kargv stacktop uargv mem n = done (mem', argOffset len n)) ∧
      ArgsPlaced kargv len stacktop uargv n mem mem' := by
  induction n with
  | zero =>
      exact ⟨mem, fun _ _ => rfl, fun k hk => absurd hk (Nat.not_lt_zero k),
        fun k hk => absurd hk (Nat.not_lt_zero k), fun _ _ => rfl⟩
  | succ n ih =>
      obtain ⟨mem1, hrun, hplaced⟩ := ih (by omega)
      obtain ⟨hstring, hlen⟩ := h n (by omega)
      -- `strcpy` of the string, and then the store of the pointer.
      obtain ⟨mem2, hcpy, hcopy, hout⟩ := @strcpy_spec mem1 (kargv n) 0 (len n)
        (stacktop + argOffset len n) (by rw [Nat.zero_add]; exact hstring.nul) fun j hj => by
          rw [Nat.zero_add]
          exact hstring.first j hj
      have hsize : argOffset len n + (len n + 1) ≤ argOffset len argc := argOffset_le hn
      have hptr : stacktop + argOffset len n < 256 ^ 8 := by
        have : (256 : Nat) ^ 8 = 2 ^ 64 := by decide
        omega
      have hput : ∀ x, x < uargv + 8 * n ∨ uargv + 8 * n + 8 ≤ x →
          Block.put mem2 (uargv + 8 * n) (leBytes 8 (stacktop + argOffset len n)) x = mem2 x := by
        intro x hx
        apply put_outside
        rw [Vfs.length_leBytes]
        exact hx
      refine ⟨Block.put mem2 (uargv + 8 * n) (leBytes 8 (stacktop + argOffset len n)),
        fun bound hbound => ?_, fun k hk j hj => ?_, fun k hk => ?_, fun x hx => ?_⟩
      · have hmod : (argOffset len n + (len n + 1)) % 2 ^ 32 = argOffset len (n + 1) := by
          rw [← h.argvSize hargc hn, TriOS.argvSize, hstring.strnlen hlen,
            h.argvSize hargc (by omega)]
        simp only [placeArgs, hrun bound hbound, bind_done, hcpy bound (by omega),
          hstring.strnlen hlen, hmod, pure_eq_done]
      · rcases Nat.lt_succ_iff_lt_or_eq.1 hk with hk | rfl
        · have hle := @argOffset_le len _ _ hk
          rw [hput _ (by omega), hout _ (by omega)]
          exact hplaced.string k hk j hj
        · rw [hput _ (by omega), hcopy j hj, Nat.zero_add]
      · rcases Nat.lt_succ_iff_lt_or_eq.1 hk with hk | rfl
        · rw [← hplaced.pointer k hk]
          unfold loadPointer
          rw [Vfs.bytes_put_of_disjoint (by omega)]
          congr 1
          exact bytes_congr fun x _ hlt => hout x (by omega)
        · unfold loadPointer
          have hself := @Vfs.bytes_put_self (uargv + 8 * k) mem2
            (leBytes 8 (stacktop + argOffset len k))
          rw [Vfs.length_leBytes] at hself
          rw [hself, Vfs.leNat_leBytes 8 _ hptr]
      · rw [argOffset] at hx
        rw [hput x (by omega), hout x (by omega)]
        exact hplaced.outside x (by omega)
/-- The arguments on the stack: at `sp` the number of the arguments, at `uargv` the pointers, and
above these the strings in their order. -/
structure ArgvLayout (kargv : Nat → Nat → UInt8) (len : Nat → Nat) (argc : Nat)
    (mem mem' : Nat → UInt8) (uargv sp : Nat) : Prop where
  aligned : uargv % 8 = 0
  bottom : ustackTop - ustackSize ≤ sp
  word : sp + 4 ≤ uargv
  count : leNat (Block.bytes mem' sp 4) = argc
  above : ∀ k, k < argc → uargv + 8 * argc ≤ loadPointer mem' (uargv + 8 * k)
  apart : ∀ i k, i < k → k < argc →
    loadPointer mem' (uargv + 8 * i) + (len i + 1) ≤ loadPointer mem' (uargv + 8 * k)
  top : ∀ k, k < argc → loadPointer mem' (uargv + 8 * k) + (len k + 1) ≤ ustackTop
  copied : ∀ k, k < argc → ∀ j, j ≤ len k →
    mem' (loadPointer mem' (uargv + 8 * k) + j) = kargv k j
  outside : ∀ x, x < sp ∨ ustackTop ≤ x → mem' x = mem x

theorem setupArgs_spec (h : HoldStrings kargv len argc) (hargc : argc ≤ execMaxArgNum)
    (mem : Nat → UInt8) : ∃ mem' uargv sp,
      Returns (fun bound => setupArgs bound kargv argc mem) (mem', uargv, sp) ∧
      ArgvLayout kargv len argc mem mem' uargv sp := by
  have hsize : argOffset len argc ≤ 32 * 4096 :=
    (h.offset_le le_rfl).trans (Nat.mul_le_mul_right _ hargc)
  have hargc : argc ≤ 32 := hargc
  have htop : ustackTop = 2147483648 := by decide
  have hstack : ustackSize = 1048576 := by decide
  obtain ⟨stacktop, hstacktop⟩ : ∃ p, p = ustackTop - (argOffset len argc / 8 + 1) * 8 := ⟨_, rfl⟩
  obtain ⟨mem1, hrun, hplaced⟩ := @placeArgs_spec mem kargv len argc argc stacktop
    (stacktop - argc * 8) h hargc (by omega) (by omega) le_rfl
  obtain ⟨uargv, huargv⟩ : ∃ p, p = stacktop - argc * 8 := ⟨_, rfl⟩
  rw [← huargv] at hrun hplaced
  -- The store of the count is below the pointers and the strings.
  have hword : ∀ x, x < uargv - 4 ∨ uargv ≤ x →
      Block.put mem1 (uargv - 4) (leBytes 4 argc) x = mem1 x := by
    intro x hx
    apply put_outside
    rw [Vfs.length_leBytes]
    omega
  have hpointer : ∀ k, k < argc →
      loadPointer (Block.put mem1 (uargv - 4) (leBytes 4 argc)) (uargv + 8 * k) =
        stacktop + argOffset len k := by
    intro k hk
    rw [← hplaced.pointer k hk]
    unfold loadPointer
    congr 1
    exact bytes_congr fun x hle _ => hword x (by omega)
  refine ⟨Block.put mem1 (uargv - 4) (leBytes 4 argc), uargv, uargv - 4,
    ⟨execMaxArgLen + 1, fun bound hbound => ?_⟩, ?_⟩
  · have hstacktop' : (ustackTop + 2 ^ 64 - (argOffset len argc / 8 + 1) * 8) % 2 ^ 64 = stacktop := by
      omega
    have huargv' : (stacktop + 2 ^ 64 - argc * 8) % 2 ^ 64 = uargv := by omega
    have hsp : (uargv + 2 ^ 64 - 4) % 2 ^ 64 = uargv - 4 := by omega
    simp only [setupArgs, h.argvSize hargc le_rfl, hstacktop', huargv', hrun bound hbound, bind_done,
      hsp, pure_eq_done]
  · refine
      { aligned := by omega, bottom := by omega, word := by omega, count := ?_, above := ?_,
        apart := ?_, top := ?_, copied := ?_, outside := ?_ }
    · have hself := @Vfs.bytes_put_self (uargv - 4) mem1 (leBytes 4 argc)
      rw [Vfs.length_leBytes] at hself
      rw [hself]
      exact Vfs.leNat_leBytes 4 argc (by omega)
    · intro k hk
      rw [hpointer k hk]
      omega
    · intro i k hik hk
      have hle := @argOffset_le len _ _ hik
      rw [hpointer i (hik.trans hk), hpointer k hk]
      omega
    · intro k hk
      have hle := @argOffset_le len _ _ hk
      rw [hpointer k hk]
      omega
    · intro k hk j hj
      rw [hpointer k hk, hword _ (by omega)]
      exact hplaced.string k hk j hj
    · intro x hx
      rw [hword x (by omega)]
      exact hplaced.outside x (by omega)

/-- For the arguments that `copy_kargv` accepts, `load_icode` puts exact copies of the strings, the
pointers to them and their number in separate places of the stack, at or above the stack pointer. -/
theorem argv_layout {junk : Nat → Nat → UInt8} (hargc : argc ≤ execMaxArgNum)
    (hcopy : Returns (fun bound => copyKargv mem bound alloc mm argc argv junk) (0, mm', kargv))
    (stack : Nat → UInt8) : ∃ len stack' uargv sp,
      Returns (fun bound => setupArgs bound kargv argc stack) (stack', uargv, sp) ∧
      (∀ k, k < argc → ArgString mem argv kargv k (len k)) ∧
      ArgvLayout kargv len argc stack stack' uargv sp := by
  obtain ⟨bound, _, hrun⟩ := hcopy.exists_eq 0
  choose! len hlen using copyKargv_ok hrun
  obtain ⟨stack', uargv, sp, hsetup, hlayout⟩ :=
    setupArgs_spec (fun k hk => ⟨(hlen k hk).string, (hlen k hk).short⟩) hargc stack
  exact ⟨len, stack', uargv, sp, hsetup, hlen, hlayout⟩
/-- The arguments of the first program, in the memory of the kernel: the array, and one string in the
last bytes of the page. -/
def oneArg : Nat → UInt8 :=
  Block.put (Block.put (fun _ => 0) kernBase (leBytes 8 (kernBase + 0xFFE))) (kernBase + 0xFFE) [65, 0]

/-- The buffer that `copy_kargv` fills with it. -/
def oneKargv : Nat → Nat → UInt8 :=
  Function.update (fun _ _ => 0) 0 (memcpyTo (fun _ => 0) 0 oneArg (kernBase + 0xFFE) 2)

theorem loadPointer_oneArg : loadPointer oneArg kernBase = kernBase + 0xFFE := by decide +kernel

theorem copyKargv_oneArg :
    Returns (fun bound => copyKargv oneArg bound (fun _ => true) none 1 kernBase fun _ _ => 0)
      (0, none, oneKargv) := by
  have hcopy : ∀ k, ∃ reads, copyString oneArg (k + 1) none (fun _ => 0) (kernBase + 0xFFE)
      (execMaxArgLen + 1) =
        done (true, ⟨none, memcpyTo (fun _ => 0) 0 oneArg (kernBase + 0xFFE) 2, reads⟩) :=
    fun k => ⟨_, rfl⟩
  have hcheck : ∀ bound, userMemCheck bound none kernBase 8 false = done (true, none) := by
    intro bound
    rfl
  refine ⟨1, fun bound hbound => ?_⟩
  obtain ⟨k, rfl⟩ := Nat.exists_eq_add_of_le' hbound
  obtain ⟨reads, hcopy⟩ := hcopy k
  simp only [copyKargv, hcheck, bind_done, copyKargvLoop, Nat.mul_zero, Nat.add_zero,
    loadPointer_oneArg, hcopy, pure_eq_done]
  rfl

/-- The first program gets its one argument. -/
theorem argv_layout_oneArg : ∃ len stack' uargv sp,
    Returns (fun bound => setupArgs bound oneKargv 1 fun _ => 0) (stack', uargv, sp) ∧
    (∀ k, k < 1 → ArgString oneArg kernBase oneKargv k (len k)) ∧
    ArgvLayout oneKargv len 1 (fun _ => 0) stack' uargv sp :=
  argv_layout (by decide) copyKargv_oneArg fun _ => 0

end TriOS
