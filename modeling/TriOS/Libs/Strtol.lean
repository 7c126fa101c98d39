import TriOS.Libs.PrintfmtRuns

/-!
# Strtol — numbers that are read back

`strtol` on what `printnum` prints. A number is printed as a head, the padding and its digits. Reading gives the number
back unless the padding separates the head from the digits, or is taken for a sign.
-/

namespace TriOS
namespace Printfmt

/-! ## strtol -/

/-- The value of a character as a digit. -/
def strtolDigit (ch : UInt8) : Option Int :=
  if ascii '0' ≤ ch ∧ ch ≤ ascii '9' then some (ch.toNat - (ascii '0').toNat)
  else if ascii 'a' ≤ ch ∧ ch ≤ ascii 'z' then some (ch.toNat - (ascii 'a').toNat + 10)
  else if ascii 'A' ≤ ch ∧ ch ≤ ascii 'Z' then some (ch.toNat - (ascii 'A').toNat + 10)
  else none

/-- The loop over the digits. A `long` wraps around. -/
def strtolLoop (base : Int) : List UInt8 → BitVec 64 → BitVec 64 × List UInt8
  | [], val => (val, [])
  | ch :: s, val =>
      match strtolDigit ch with
      | none => (val, ch :: s)
      | some dig =>
          if base ≤ dig then (val, ch :: s)
          else strtolLoop base s (val * BitVec.ofInt 64 base + BitVec.ofInt 64 dig)

/-- The sign, as `neg`, and what is behind it. -/
def strtolSign (s : List UInt8) : Bool × List UInt8 :=
  if s.head? = some (ascii '+') then (false, s.tail)
  else if s.head? = some (ascii '-') then (true, s.tail)
  else (false, s)

/-- The base, and what is behind its prefix. -/
def strtolBase (base : Int) (s : List UInt8) : Int × List UInt8 :=
  if (base = 0 ∨ base = 16) ∧ s.head? = some (ascii '0') ∧ s.tail.head? = some (ascii 'x') then (16, s.tail.tail)
  else if base = 0 ∧ s.head? = some (ascii '0') then (8, s.tail)
  else if base = 0 then (10, s)
  else (base, s)

/-- `strtol`, with the string at `*endptr`. A string is given by its bytes before the NUL. -/
def strtol (s : List UInt8) (base : Int) : BitVec 64 × List UInt8 :=
  let s := s.dropWhile fun ch => ch = ascii ' ' ∨ ch = ascii '\t'
  let sign := strtolSign s
  let r := strtolBase base sign.2
  let val := strtolLoop r.1 r.2 0
  (if sign.1 then -val.1 else val.1, val.2)

/-! ## Digits -/

/-- The digits of a number. -/
def numeral (base : Base) (num : Nat) : List UInt8 :=
  if num = 0 then [digit 0] else (base.toNat.digits num).reverse.map digit

section Numeral

variable {base : Base} {num : Nat} {ch : UInt8} {s : List UInt8} {val : BitVec 64}

theorem numeral_of_lt (h : num < base.toNat) : numeral base num = [digit num] := by
  unfold numeral
  by_cases hzero : num = 0
  · rw [if_pos hzero, hzero]
  · rw [if_neg hzero, Nat.digits_of_lt base.toNat num hzero h, List.reverse_singleton, List.map_singleton]

theorem numeral_of_le (h : base.toNat ≤ num) :
    numeral base num = numeral base (num / base.toNat) ++ [digit (num % base.toNat)] := by
  have hbase : 1 < base.toNat := base.two_le
  have hdiv : num / base.toNat ≠ 0 := (Nat.div_pos h (by omega)).ne'
  unfold numeral
  rw [if_neg (by omega), if_neg hdiv, Nat.digits_def' hbase (by omega), List.reverse_cons, List.map_append,
    List.map_singleton]

/-- The characters of a numeral are digits of its base. -/
theorem strtolDigit_digit {m : Nat} (h : m < base.toNat) : strtolDigit (digit m) = some (m : Int) := by
  have hall : ∀ m : Fin 16, strtolDigit (digit m) = some ((m : Nat) : Int) := by decide
  have hle : base.toNat ≤ 16 := by
    cases base <;> decide
  exact hall ⟨m, h.trans_le hle⟩

theorem strtolLoop_cons {dig : Int} (base : Int) (hdig : strtolDigit ch = some dig) (hlt : dig < base) :
    strtolLoop base (ch :: s) val = strtolLoop base s (val * BitVec.ofInt 64 base + BitVec.ofInt 64 dig) := by
  conv_lhs => unfold strtolLoop
  rw [hdig]
  dsimp only
  rw [if_neg hlt.not_ge]

theorem strtolLoop_stop (base : Int) (hdig : strtolDigit ch = none) : strtolLoop base (ch :: s) val = (val, ch :: s) := by
  unfold strtolLoop
  rw [hdig]

/-- The loop reads a numeral as the number. -/
theorem strtolLoop_numeral (base : Base) (num : Nat) (s : List UInt8) :
    strtolLoop base.toNat (numeral base num ++ s) 0 = strtolLoop base.toNat s (BitVec.ofNat 64 num) := by
  induction num using Nat.strong_induction_on generalizing s with
  | _ num ih =>
      by_cases h : base.toNat ≤ num
      · have hmod : num % base.toNat < base.toNat := Nat.mod_lt _ (Nat.lt_of_lt_of_le (by decide) base.two_le)
        rw [numeral_of_le h, List.append_assoc, ih _ (div_base_lt h), List.singleton_append,
          strtolLoop_cons _ (strtolDigit_digit hmod) (by exact_mod_cast hmod)]
        congr 1
        calc
          BitVec.ofNat 64 (num / base.toNat) * BitVec.ofInt 64 base.toNat + BitVec.ofInt 64 ↑(num % base.toNat)
              = BitVec.ofNat 64 (num / base.toNat * base.toNat + num % base.toNat) := by
            rw [BitVec.ofNat_add, BitVec.ofNat_mul, BitVec.ofInt_natCast, BitVec.ofInt_natCast]
          _ = BitVec.ofNat 64 num := by
            rw [Nat.div_add_mod']
      · have hlt : num < base.toNat := Nat.not_le.1 h
        rw [numeral_of_lt hlt, List.singleton_append, strtolLoop_cons _ (strtolDigit_digit hlt) (by exact_mod_cast hlt),
          BitVec.ofInt_natCast]
        simp

/-- Zeros in front of a number leave the value at zero. -/
theorem strtolLoop_zeros (base : Base) (n : Nat) (s : List UInt8) :
    strtolLoop base.toNat (List.replicate n (ascii '0') ++ s) 0 = strtolLoop base.toNat s 0 := by
  induction n with
  | zero => rfl
  | succ n ih =>
      have hpos : (0 : Int) < base.toNat := by exact_mod_cast Nat.lt_of_lt_of_le (by decide) base.two_le
      have hdigit : strtolDigit (ascii '0') = some 0 := by decide
      rw [List.replicate_succ, List.cons_append, strtolLoop_cons _ hdigit hpos]
      simpa using ih

end Numeral

/-! ## Reading what was printed -/

section Text

variable {base : Base} {num n : Nat} {ch padc : UInt8} {s : List UInt8}

/-- Nothing but digits. -/
def Digits (s : List UInt8) : Prop := ∀ ch ∈ s, ∃ m : Fin 16, ch = digit m

theorem digits_numeral (base : Base) (num : Nat) : Digits (numeral base num) := by
  have hle : base.toNat ≤ 16 := by
    cases base <;> decide
  unfold numeral
  split
  · intro ch hch
    exact ⟨0, List.mem_singleton.1 hch⟩
  · intro ch hch
    obtain ⟨m, hm, rfl⟩ := List.mem_map.1 hch
    have hlt : m < base.toNat := Nat.digits_lt_base base.two_le (List.mem_reverse.1 hm)
    exact ⟨⟨m, hlt.trans_le hle⟩, rfl⟩

theorem digits_zeros (n : Nat) (h : Digits s) : Digits (List.replicate n (ascii '0') ++ s) := by
  intro ch hch
  rcases List.mem_append.1 hch with hmem | hmem
  · exact ⟨0, List.eq_of_mem_replicate hmem⟩
  · exact h ch hmem

/-- The parts of `strtol` one after the other. -/
theorem strtol_of {base base' : Int} {t u v : List UInt8} {neg : Bool}
    (hdrop : (s.dropWhile fun ch => ch = ascii ' ' ∨ ch = ascii '\t') = t) (hsign : strtolSign t = (neg, u))
    (hbase : strtolBase base u = (base', v)) :
    strtol s base = (if neg then -(strtolLoop base' v 0).1 else (strtolLoop base' v 0).1, (strtolLoop base' v 0).2) := by
  simp only [strtol, hdrop, hsign, hbase]

/-- Blanks in front of a number are passed over. -/
theorem strtol_congr {base : Int} {t : List UInt8}
    (h : (s.dropWhile fun ch => ch = ascii ' ' ∨ ch = ascii '\t') =
      t.dropWhile fun ch => ch = ascii ' ' ∨ ch = ascii '\t') : strtol s base = strtol t base := by
  simp only [strtol, h]

/-- A digit is none of the characters that are read in front of the digits. -/
theorem digit_ne (m : Fin 16) : digit m ≠ ascii ' ' ∧ digit m ≠ ascii '\t' ∧ digit m ≠ ascii '+' ∧
    digit m ≠ ascii '-' ∧ digit m ≠ ascii 'x' := by
  revert m
  decide

theorem Digits.head_ne (h : Digits s) : s.head? ≠ some (ascii '+') ∧ s.head? ≠ some (ascii '-') ∧
    s.head? ≠ some (ascii 'x') := by
  cases s with
  | nil => simp
  | cons ch s =>
      obtain ⟨m, rfl⟩ := h ch List.mem_cons_self
      obtain ⟨-, -, hplus, hminus, hx⟩ := digit_ne m
      exact ⟨fun heq => hplus (Option.some.inj heq), fun heq => hminus (Option.some.inj heq),
        fun heq => hx (Option.some.inj heq)⟩

theorem Digits.tail (h : Digits s) : Digits s.tail := fun ch hch => h ch (List.mem_of_mem_tail hch)

theorem Digits.dropWhile (h : Digits s) : (s.dropWhile fun ch => ch = ascii ' ' ∨ ch = ascii '\t') = s := by
  cases s with
  | nil => rfl
  | cons ch s =>
      obtain ⟨m, rfl⟩ := h ch List.mem_cons_self
      obtain ⟨hblank, htab, -⟩ := digit_ne m
      rw [List.dropWhile_cons_of_neg]
      simp only [hblank, htab, or_self, decide_false, Bool.false_eq_true, not_false_eq_true]

/-- No prefix is read in digits, unless the base is left open. -/
theorem Digits.strtolBase (h : Digits s) (base : Base) :
    Printfmt.strtolBase base.toNat s = ((base.toNat : Int), s) := by
  have hne : (base.toNat : Int) ≠ 0 := by
    cases base <;> decide
  unfold Printfmt.strtolBase
  rw [if_neg fun hp => h.tail.head_ne.2.2 hp.2.2, if_neg fun hp => hne hp.1, if_neg hne]

theorem Digits.strtol (h : Digits s) (base : Base) : strtol s base.toNat = strtolLoop base.toNat s 0 := by
  have hsign : strtolSign s = (false, s) := by
    unfold strtolSign
    rw [if_neg h.head_ne.1, if_neg h.head_ne.2.1]
  rw [strtol_of h.dropWhile hsign (h.strtolBase base)]
  rfl

theorem Digits.strtol_minus (h : Digits s) (base : Base) :
    Printfmt.strtol (ascii '-' :: s) base.toNat = (-(strtolLoop base.toNat s 0).1, (strtolLoop base.toNat s 0).2) := by
  have hdrop : (ascii '-' :: s).dropWhile (fun ch => ch = ascii ' ' ∨ ch = ascii '\t') = ascii '-' :: s :=
    List.dropWhile_cons_of_neg (by decide)
  have hsign : strtolSign (ascii '-' :: s) = (true, s) := rfl
  rw [strtol_of hdrop hsign (h.strtolBase base)]
  rfl

/-- Behind `0x`, the digits follow at once. -/
theorem strtol_prefix (s : List UInt8) :
    strtol (ascii '0' :: ascii 'x' :: s) Base.hex.toNat = strtolLoop Base.hex.toNat s 0 := by
  have hdrop : (ascii '0' :: ascii 'x' :: s).dropWhile (fun ch => ch = ascii ' ' ∨ ch = ascii '\t') =
      ascii '0' :: ascii 'x' :: s := List.dropWhile_cons_of_neg (by decide)
  rw [strtol_of hdrop rfl rfl]
  rfl

theorem strtol_blanks (n : Nat) (s : List UInt8) (base : Int) :
    strtol (List.replicate n (ascii ' ') ++ s) base = strtol s base := by
  induction n with
  | zero => rfl
  | succ n ih =>
      have hdrop : (ascii ' ' :: (List.replicate n (ascii ' ') ++ s)).dropWhile
          (fun ch => ch = ascii ' ' ∨ ch = ascii '\t') =
          (List.replicate n (ascii ' ') ++ s).dropWhile (fun ch => ch = ascii ' ' ∨ ch = ascii '\t') :=
        List.dropWhile_cons_of_pos (by decide)
      rw [← ih, List.replicate_succ, List.cons_append]
      exact strtol_congr hdrop

/-- Behind a sign, what is no digit ends the number. -/
theorem strtol_minus_stop (base : Base) (hdig : strtolDigit ch = none) :
    strtol (ascii '-' :: ch :: s) base.toNat = (0, ch :: s) := by
  have hdrop : (ascii '-' :: ch :: s).dropWhile (fun ch => ch = ascii ' ' ∨ ch = ascii '\t') = ascii '-' :: ch :: s :=
    List.dropWhile_cons_of_neg (by decide)
  have hsign : strtolSign (ascii '-' :: ch :: s) = (true, ch :: s) := rfl
  have hne : (base.toNat : Int) ≠ 0 := by
    cases base <;> decide
  have hzero : (ch :: s).head? ≠ some (ascii '0') := by
    intro heq
    rw [Option.some.inj heq] at hdig
    exact absurd hdig (by decide)
  have hbase : strtolBase base.toNat (ch :: s) = ((base.toNat : Int), ch :: s) := by
    unfold strtolBase
    rw [if_neg fun hp => hzero hp.2.1, if_neg fun hp => hne hp.1, if_neg hne]
  rw [strtol_of hdrop hsign hbase, strtolLoop_stop _ hdig]
  simp

theorem strtol_numeral (base : Base) (n num : Nat) :
    strtol (List.replicate n (ascii '0') ++ numeral base num) base.toNat = (BitVec.ofNat 64 num, []) := by
  have hloop := strtolLoop_numeral base num []
  rw [List.append_nil] at hloop
  rw [(digits_zeros n (digits_numeral base num)).strtol, strtolLoop_zeros, hloop]
  rfl

theorem strtol_negative (base : Base) (n num : Nat) :
    strtol (ascii '-' :: (List.replicate n (ascii '0') ++ numeral base num)) base.toNat =
      (-BitVec.ofNat 64 num, []) := by
  have hloop := strtolLoop_numeral base num []
  rw [List.append_nil] at hloop
  rw [(digits_zeros n (digits_numeral base num)).strtol_minus, strtolLoop_zeros, hloop]
  rfl

end Text

/-! ## Number directives -/

section Number

variable {d : Directive} {base : Base} {n : BitVec 64} {padc : UInt8} {ap ap' : List Arg}
  {printfmt : List UInt8 → List Arg → PrintM (List Int) Unit}

/-- Code that prints `text` and returns `a`. -/
def Writes {α : Type} (f : PrintM (List Int) α) (a : α) (text : List UInt8) : Prop :=
  ∀ out, f out = Except.ok (a, out ++ text.map fun ch => (ch.toNat : Int))

theorem Writes.pure {α : Type} (a : α) : Writes (Pure.pure a) a [] := fun out => by
  rw [List.map_nil, List.append_nil]
  rfl

theorem Writes.emit (ch : UInt8) : Writes (Printfmt.emit collect ch.toNat) () [ch] := fun _ => rfl

theorem Writes.ofExcept {α : Type} {x : Except Stop α} {a : α} (h : x = Except.ok a) :
    Writes (Printfmt.ofExcept x) a [] := by
  rw [h]
  exact Writes.pure a

theorem Writes.bind {α β : Type} {f : PrintM (List Int) α} {g : α → PrintM (List Int) β} {a : α} {b : β}
    {s t : List UInt8} (hf : Writes f a s) (hg : Writes (g a) b t) : Writes (f >>= g) b (s ++ t) := by
  intro out
  change ((f out).bind fun x => g x.1 x.2) = _
  rw [hf out]
  change g a _ = _
  rw [hg, List.map_append, List.append_assoc]

/-- What is returned behind the printing prints nothing. -/
theorem Writes.returns {β : Type} {f : PrintM (List Int) Unit} {s : List UInt8} (hf : Writes f () s) (b : β) :
    Writes (f >>= fun _ => Pure.pure b) b s := by
  have hbind := @Writes.bind _ _ f (fun _ => Pure.pure b) () b s [] hf (Writes.pure b)
  rw [List.append_nil] at hbind
  exact hbind

theorem padding_writes (ch : UInt8) (n : Nat) : Writes (padding collect ch n) () (List.replicate n ch) := by
  induction n with
  | zero => exact Writes.pure ()
  | succ n ih => exact (Writes.emit ch).bind ih

/-- How many pad characters `printnum` prints. -/
def pads (base : Base) (num : Nat) (width : Int) : Nat := (wrap32 (width - (numeral base num).length)).toNat

/-- `printnum` prints the padding and then the digits. -/
theorem printnum_writes (base : Base) (padc : UInt8) (num : Nat) (width : Int) :
    Writes (printnum collect base padc num width) ()
      (List.replicate (pads base num width) padc ++ numeral base num) := by
  induction num using Nat.strong_induction_on generalizing width with
  | _ num ih =>
      unfold printnum
      by_cases h : base.toNat ≤ num
      · have hpads : pads base (num / base.toNat) (wrap32 (width - 1)) = pads base num width := by
          have hwrap : wrap32 (wrap32 (width - 1) - (numeral base (num / base.toNat)).length) =
              wrap32 (width - 1 - (numeral base (num / base.toNat)).length) := Int.bmod_sub_bmod
          unfold pads
          rw [hwrap, numeral_of_le h, List.length_append, List.length_singleton, Nat.cast_add, Nat.cast_one,
            Int.sub_sub, Int.add_comm 1]
        rw [dif_pos h, numeral_of_le h, ← List.append_assoc, ← hpads]
        exact (ih _ (div_base_lt h) _).bind (Writes.emit _)
      · have hlt : num < base.toNat := Nat.not_le.1 h
        have hpads : pads base num width = (wrap32 (width - 1)).toNat := by
          unfold pads
          rw [numeral_of_lt hlt]
          rfl
        rw [dif_neg h, hpads, numeral_of_lt hlt, Nat.mod_eq_of_lt hlt]
        exact (padding_writes padc _).bind (Writes.emit _)

/-- The base of a letter that prints a number. -/
def numberBase (ch : UInt8) : Option Base :=
  if ch = ascii 'd' ∨ ch = ascii 'u' then some Base.decimal
  else if ch = ascii 'o' then some Base.octal
  else if ch = ascii 'p' ∨ ch = ascii 'x' then some Base.hex
  else none

/-- The argument that such a letter takes. -/
def numberArg (d : Directive) : Except Stop (BitVec 64 × List Arg) :=
  if d.ch = ascii 'd' then getint d.ap d.spec.lflag
  else if d.ch = ascii 'p' then vaPointer d.ap
  else getuint d.ap d.spec.lflag

/-- What is printed in front of the padding. -/
def numberHead (d : Directive) (n : BitVec 64) : List UInt8 :=
  if d.ch = ascii 'd' ∧ n.toInt < 0 then text "-"
  else if d.ch = ascii 'p' then text "0x"
  else []

/-- The number whose digits are printed. -/
def magnitude (d : Directive) (n : BitVec 64) : Nat :=
  if d.ch = ascii 'd' ∧ n.toInt < 0 then (-n).toNat else n.toNat

theorem convert_number (hbase : numberBase d.ch = some base) (harg : numberArg d = Except.ok (n, ap')) :
    Writes (convert collect printfmt d) (d.cursor, ap')
      (numberHead d n ++ (List.replicate (pads base (magnitude d n) d.spec.width) d.spec.padc ++
        numeral base (magnitude d n))) := by
  have hnumber : ∀ num, Writes (printnum collect base d.spec.padc num d.spec.width >>= fun _ => pure (d.cursor, ap'))
      (d.cursor, ap') (List.replicate (pads base num d.spec.width) d.spec.padc ++ numeral base num) :=
    fun num => (printnum_writes base d.spec.padc num d.spec.width).returns _
  have hother : ∀ {x y : UInt8}, d.ch = x → x ≠ y → ¬ d.ch = y := fun h hne heq => hne (h.symm.trans heq)
  have hunsigned : ∀ {x : UInt8}, d.ch = x → x ≠ ascii 'd' → x ≠ ascii 'p' →
      getuint d.ap d.spec.lflag = Except.ok (n, ap') ∧ numberHead d n = [] ∧ magnitude d n = n.toNat := by
    intro x hx hd hp
    refine ⟨?_, ?_, if_neg fun h => hother hx hd h.1⟩
    · rw [← harg]
      unfold numberArg
      rw [if_neg (hother hx hd), if_neg (hother hx hp)]
    · unfold numberHead
      rw [if_neg fun h => hother hx hd h.1, if_neg (hother hx hp)]
  unfold convert
  by_cases hd : d.ch = ascii 'd'
  · obtain rfl : Base.decimal = base := Option.some.inj ((if_pos (Or.inl hd)).symm.trans hbase)
    have hget : getint d.ap d.spec.lflag = Except.ok (n, ap') := (if_pos hd).symm.trans harg
    rw [if_neg (hother hd (by decide)), if_neg (hother hd (by decide)), if_neg (hother hd (by decide)), if_pos hd]
    by_cases hneg : n.toInt < 0
    · have hhead : numberHead d n = text "-" := if_pos ⟨hd, hneg⟩
      have hmag : magnitude d n = (-n).toNat := if_pos ⟨hd, hneg⟩
      rw [hhead, hmag]
      refine (Writes.ofExcept hget).bind ?_
      dsimp only
      rw [if_pos hneg]
      exact ((Writes.emit (ascii '-')).bind (printnum_writes _ _ _ _)).returns _
    · have hhead : numberHead d n = [] := by
        unfold numberHead
        rw [if_neg fun h => hneg h.2, if_neg (hother hd (by decide))]
      have hmag : magnitude d n = n.toNat := if_neg fun h => hneg h.2
      rw [hhead, hmag]
      refine (Writes.ofExcept hget).bind ?_
      dsimp only
      rw [if_neg hneg]
      exact hnumber _
  rw [if_neg hd]
  by_cases hu : d.ch = ascii 'u'
  · obtain rfl : Base.decimal = base := Option.some.inj ((if_pos (Or.inr hu)).symm.trans hbase)
    obtain ⟨hget, hhead, hmag⟩ := hunsigned hu (by decide) (by decide)
    rw [if_neg (hother hu (by decide)), if_neg (hother hu (by decide)), if_neg (hother hu (by decide)), if_pos hu,
      hhead, hmag]
    exact (Writes.ofExcept hget).bind (hnumber _)
  rw [if_neg hu]
  unfold numberBase at hbase
  rw [if_neg (not_or.2 ⟨hd, hu⟩)] at hbase
  by_cases ho : d.ch = ascii 'o'
  · obtain rfl : Base.octal = base := Option.some.inj ((if_pos ho).symm.trans hbase)
    obtain ⟨hget, hhead, hmag⟩ := hunsigned ho (by decide) (by decide)
    rw [if_neg (hother ho (by decide)), if_neg (hother ho (by decide)), if_neg (hother ho (by decide)), if_pos ho,
      hhead, hmag]
    exact (Writes.ofExcept hget).bind (hnumber _)
  rw [if_neg ho] at hbase ⊢
  by_cases hp : d.ch = ascii 'p'
  · obtain rfl : Base.hex = base := Option.some.inj ((if_pos (Or.inl hp)).symm.trans hbase)
    have hget : vaPointer d.ap = Except.ok (n, ap') := by
      unfold numberArg at harg
      rw [if_neg hd, if_pos hp] at harg
      exact harg
    have hmag : magnitude d n = n.toNat := if_neg fun h => hd h.1
    have hhead : numberHead d n = text "0x" := by
      unfold numberHead
      rw [if_neg fun h => hd h.1, if_pos hp]
    rw [if_neg (hother hp (by decide)), if_neg (hother hp (by decide)), if_neg (hother hp (by decide)), if_pos hp,
      hhead, hmag]
    exact (Writes.emit (ascii '0')).bind ((Writes.emit (ascii 'x')).bind ((Writes.ofExcept hget).bind (hnumber _)))
  rw [if_neg hp]
  by_cases hx : d.ch = ascii 'x'
  · obtain rfl : Base.hex = base := Option.some.inj ((if_pos (Or.inr hx)).symm.trans hbase)
    obtain ⟨hget, hhead, hmag⟩ := hunsigned hx (by decide) (by decide)
    rw [if_neg (hother hx (by decide)), if_neg (hother hx (by decide)), if_neg (hother hx (by decide)), if_pos hx,
      hhead, hmag]
    exact (Writes.ofExcept hget).bind (hnumber _)
  · rw [if_neg fun h => h.elim hp hx] at hbase
    exact absurd hbase (Option.some_ne_none base).symm

/-- The three heads, with the number behind them. -/
theorem numberHead_cases (d : Directive) (n : BitVec 64) (hbase : numberBase d.ch = some base) :
    (numberHead d n = [] ∧ magnitude d n = n.toNat) ∨ (numberHead d n = [ascii '-'] ∧ magnitude d n = (-n).toNat) ∨
      (numberHead d n = [ascii '0', ascii 'x'] ∧ magnitude d n = n.toNat ∧ base = Base.hex) := by
  unfold numberHead magnitude
  by_cases hneg : d.ch = ascii 'd' ∧ n.toInt < 0
  · rw [if_pos hneg, if_pos hneg]
    exact Or.inr (Or.inl ⟨rfl, rfl⟩)
  rw [if_neg hneg, if_neg hneg]
  by_cases hp : d.ch = ascii 'p'
  · rw [if_pos hp]
    rw [hp] at hbase
    exact Or.inr (Or.inr ⟨rfl, rfl, (Option.some.inj hbase).symm⟩)
  · rw [if_neg hp]
    exact Or.inl ⟨rfl, rfl⟩

/-- The padding that a directive can ask for. -/
def PadChar (padc : UInt8) : Prop := padc = ascii ' ' ∨ padc = ascii '-' ∨ padc = ascii '0'

theorem PadChar.digit (h : PadChar padc) (hne : padc ≠ ascii '0') : strtolDigit padc = none := by
  rcases h with rfl | rfl | rfl
  · decide
  · decide
  · exact absurd rfl hne

/-- Where the digits follow the head, or zeros are between them. -/
theorem strtol_zeros (k : Nat) (hbase : numberBase d.ch = some base) :
    strtol (numberHead d n ++ (List.replicate k (ascii '0') ++ numeral base (magnitude d n))) base.toNat = (n, []) := by
  rcases numberHead_cases d n hbase with ⟨hhead, hmag⟩ | ⟨hhead, hmag⟩ | ⟨hhead, hmag, rfl⟩
  · rw [hhead, hmag, List.nil_append, strtol_numeral, BitVec.ofNat_toNat, BitVec.setWidth_eq]
  · rw [hhead, hmag, List.singleton_append, strtol_negative, BitVec.ofNat_toNat, BitVec.setWidth_eq, BitVec.neg_neg]
  · have hloop := strtolLoop_numeral Base.hex n.toNat []
    rw [List.append_nil] at hloop
    rw [hhead, hmag, List.cons_append, List.singleton_append, strtol_prefix, strtolLoop_zeros, hloop,
      BitVec.ofNat_toNat, BitVec.setWidth_eq]
    rfl

/-- Where something else is between them, a head ends the number. -/
theorem strtol_head_stop {s : List UInt8} (hbase : numberBase d.ch = some base) (hhead : numberHead d n ≠ [])
    (hdig : strtolDigit padc = none) : strtol (numberHead d n ++ padc :: s) base.toNat = (0, padc :: s) := by
  rcases numberHead_cases d n hbase with ⟨hnil, -⟩ | ⟨hminus, -⟩ | ⟨hhex, -, rfl⟩
  · exact absurd hnil hhead
  · rw [hminus, List.singleton_append, strtol_minus_stop base hdig]
  · rw [hhex, List.cons_append, List.singleton_append, strtol_prefix, strtolLoop_stop _ hdig]

theorem strtol_text (k : Nat) (hbase : numberBase d.ch = some base) (hpadc : PadChar padc) :
    strtol (numberHead d n ++ (List.replicate k padc ++ numeral base (magnitude d n))) base.toNat = (n, []) ↔
      k = 0 ∨ padc = ascii '0' ∨ (numberHead d n = [] ∧ (padc = ascii ' ' ∨ (k = 1 ∧ -n = n))) := by
  by_cases hzero : padc = ascii '0'
  · rw [hzero]
    exact ⟨fun _ => Or.inr (Or.inl rfl), fun _ => strtol_zeros k hbase⟩
  have hdig := hpadc.digit hzero
  cases k with
  | zero => exact ⟨fun _ => Or.inl rfl, fun _ => strtol_zeros 0 hbase⟩
  | succ k =>
      by_cases hhead : numberHead d n = []
      · have hmag : magnitude d n = n.toNat := by
          rcases numberHead_cases d n hbase with ⟨-, hmag⟩ | ⟨hminus, -⟩ | ⟨hhex, -⟩
          · exact hmag
          · exact absurd (hminus.symm.trans hhead) (List.cons_ne_nil _ _)
          · exact absurd (hhex.symm.trans hhead) (List.cons_ne_nil _ _)
        rw [hhead, hmag, List.nil_append]
        rcases hpadc with rfl | rfl | rfl
        · have hread := strtol_numeral base 0 n.toNat
          rw [List.replicate_zero, List.nil_append] at hread
          rw [strtol_blanks, hread, BitVec.ofNat_toNat, BitVec.setWidth_eq]
          exact ⟨fun _ => Or.inr (Or.inr ⟨rfl, Or.inl rfl⟩), fun _ => rfl⟩
        · cases k with
          | zero =>
              -- the only pad character is read as a sign
              have hread := strtol_negative base 0 n.toNat
              rw [List.replicate_zero, List.nil_append] at hread
              rw [List.replicate_succ, List.replicate_zero, List.singleton_append, hread, BitVec.ofNat_toNat,
                BitVec.setWidth_eq]
              constructor
              · exact fun heq => Or.inr (Or.inr ⟨rfl, Or.inr ⟨rfl, congrArg Prod.fst heq⟩⟩)
              · rintro (h | h | ⟨-, h | ⟨-, h⟩⟩)
                · exact absurd h (Nat.succ_ne_zero 0)
                · exact absurd h hzero
                · exact absurd h (by decide)
                · rw [h]
          | succ k =>
              rw [List.replicate_succ, List.replicate_succ, List.cons_append, List.cons_append,
                strtol_minus_stop base hdig]
              constructor
              · exact fun heq => absurd (congrArg Prod.snd heq) (List.cons_ne_nil _ _)
              · rintro (h | h | ⟨-, h | ⟨h, -⟩⟩)
                · exact absurd h (Nat.succ_ne_zero _)
                · exact absurd h hzero
                · exact absurd h (by decide)
                · exact absurd (Nat.succ.inj h) (Nat.succ_ne_zero k)
        · exact absurd rfl hzero
      · rw [List.replicate_succ, List.cons_append, strtol_head_stop hbase hhead hdig]
        constructor
        · exact fun heq => absurd (congrArg Prod.snd heq) (List.cons_ne_nil _ _)
        · rintro (h | h | ⟨h, -⟩)
          · exact absurd h (Nat.succ_ne_zero k)
          · exact absurd h hzero
          · exact absurd h hhead

/-! ## Formats of one directive -/

/-- The flags of a format set one of three pad characters. -/
theorem reswitch_padc {fuel : Nat} {c : Cursor} {spec : Spec} (h : reswitch fuel c spec ap = Except.ok d)
    (hpadc : PadChar spec.padc) : PadChar d.spec.padc := by
  have hprecision : ∀ (spec : Spec) (precision : Int), (processPrecision spec precision).padc = spec.padc := by
    intro spec precision
    unfold processPrecision
    split
    · rfl
    · rfl
  induction fuel generalizing c spec ap with
  | zero =>
      unfold reswitch at h
      cases h
  | succ fuel ih =>
      obtain ⟨before, rest⟩ := c
      cases rest with
      | nil =>
          unfold reswitch at h
          cases h
      | cons ch rest =>
          unfold reswitch at h
          dsimp only at h
          split at h
          · exact ih h (Or.inr (Or.inl rfl))
          split at h
          · exact ih h (Or.inr (Or.inr rfl))
          split at h
          · refine ih h ?_
            rw [hprecision]
            exact hpadc
          split at h
          · cases hint : vaInt ap with
            | error e =>
                rw [hint] at h
                cases h
            | ok r =>
                rw [hint] at h
                refine ih h ?_
                rw [hprecision]
                exact hpadc
          split at h
          · refine ih h ?_
            split
            · exact hpadc
            · exact hpadc
          split at h
          · exact ih h hpadc
          split at h
          · exact ih h hpadc
          rw [← Except.ok.inj h]
          exact hpadc

/-- The conditions under which a number that was printed is read back. -/
def ReadsBack (d : Directive) (base : Base) (n : BitVec 64) : Prop :=
  pads base (magnitude d n) d.spec.width = 0 ∨ d.spec.padc = ascii '0' ∨ (numberHead d n = [] ∧
    (d.spec.padc = ascii ' ' ∨ (pads base (magnitude d n) d.spec.width = 1 ∧ -n = n)))

/-- What a format prints that is one directive. -/
theorem formatLoop_directive {rest : List UInt8}
    (hread : reswitch ((rest ++ [0]).length + 1) ⟨[ascii '%'], rest ++ [0]⟩ Spec.start ap = Except.ok d)
    (hend : d.cursor.rest = [0]) {s : List UInt8} (hconvert : Writes (convert collect printfmt d) (d.cursor, ap') s) :
    Writes (formatLoop collect printfmt (rest.length + 2) ⟨[], ascii '%' :: rest ++ [0]⟩ ap)
      ⟨0 :: d.cursor.before, []⟩ s := by
  have hlast : Writes (formatLoop collect printfmt (rest.length + 1) d.cursor ap') ⟨0 :: d.cursor.before, []⟩ [] := by
    unfold formatLoop
    rw [hend]
    exact Writes.pure _
  have hgo := @Writes.bind _ _ _ (fun q => formatLoop collect printfmt (rest.length + 1) q.1 q.2) _ _ _ _ hconvert hlast
  rw [List.append_nil] at hgo
  exact @Writes.bind _ _ _ (fun d => convert collect printfmt d >>= fun q =>
    formatLoop collect printfmt (rest.length + 1) q.1 q.2) d _ [] s (Writes.ofExcept hread) hgo

/-- A number that a format of one directive prints is read back by `strtol`, unless the padding comes between its sign
or prefix and the digits, or is itself a sign. -/
theorem strtol_vprintfmt (rest : List UInt8) (ap ap' : List Arg) (d : Directive) (base : Base) (n : BitVec 64)
    (hread : reswitch ((rest ++ [0]).length + 1) ⟨[ascii '%'], rest ++ [0]⟩ Spec.start ap = Except.ok d)
    (hend : d.cursor.rest = [0]) (hbase : numberBase d.ch = some base) (harg : numberArg d = Except.ok (n, ap')) :
    ∃ s, Prints (ascii '%' :: rest) ap ⟨0 :: d.cursor.before, []⟩ (s.map fun ch => (ch.toNat : Int)) ∧
      (strtol s base.toNat = (n, []) ↔ ReadsBack d base n) := by
  refine ⟨_, prints_of_run ?_, strtol_text (pads base (magnitude d n) d.spec.width) hbase
    (reswitch_padc hread (Or.inl rfl))⟩
  exact (formatLoop_directive hread hend (convert_number hbase harg)) []

/-- The format `%08lld` of the most negative number. -/
theorem strtol_vprintfmt_min : ∃ s, Prints (ascii '%' :: text "08lld") [Arg.long (BitVec.intMin 64)]
      ⟨0 :: (text "%08lld").reverse, []⟩ (s.map fun ch => (ch.toNat : Int)) ∧
    (strtol s 10 = (BitVec.intMin 64, []) ↔ ReadsBack
      ⟨ascii 'd', ⟨(text "%08lld").reverse, [0]⟩, ⟨ascii '0', 8, -1, 2, false⟩, [Arg.long (BitVec.intMin 64)]⟩
      Base.decimal (BitVec.intMin 64)) :=
  strtol_vprintfmt (text "08lld") [Arg.long (BitVec.intMin 64)] [] _ Base.decimal _ rfl rfl rfl rfl

end Number

end Printfmt
end TriOS
