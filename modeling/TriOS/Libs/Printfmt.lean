import Mathlib
import TriOS.Libs.Error

/-!
# printfmt.c — formatted output

`vprintfmt` over any operation that takes the characters. A format is a list of bytes with its NUL behind it, and the
cursor into it moves both ways. An `int` wraps around, as it does on the machine. What `va_arg` takes must be there,
and of the right type; strings are given by their bytes before the NUL.
-/

namespace TriOS
namespace Printfmt

/-- Why formatting stops. -/
inductive Stop where
  | args
  | table
  | bounds
  | fuel
  deriving DecidableEq, Repr

/-- An argument. -/
inductive Arg where
  | int (n : BitVec 32)
  | long (n : BitVec 64)
  | pointer (a : BitVec 64)
  | string (s : Option (List UInt8))
  deriving DecidableEq

/-- The value of an `int`. -/
def wrap32 (n : Int) : Int := Int.bmod n (2 ^ 32)

def ascii (c : Char) : UInt8 := UInt8.ofNat c.toNat

/-- The bytes of a string constant. -/
def text (s : String) : List UInt8 := s.toList.map ascii

/-- `MAXERROR` -/
def maxerror : Int := 24

/-- `error_string` -/
def errorTable : List (Option (List UInt8)) :=
  [none, some (text "unspecified error"), some (text "bad process"), some (text "invalid parameter"),
    some (text "out of memory"), some (text "out of processes"), some (text "segmentation fault"), none,
    some (text "invalid elf file"), some (text "process is killed"), some (text "panic failure"), none, none,
    some (text "no such device"), some (text "device not available"), some (text "device/file is busy"),
    some (text "no such file or directory"), some (text "is a directory"), some (text "not a directory"),
    some (text "cross device link"), some (text "unimplemented feature"), some (text "illegal seek"),
    some (text "too many files are open"), some (text "file or directory already exists"),
    some (text "directory is not empty")]

/-- `(err > MAXERROR || (p = error_string[err]) == NULL)`, with `p` when this is false. -/
def errorString (err : Int) : Except Stop (Option (List UInt8)) :=
  if maxerror < err then pure none
  else if err < 0 then throw Stop.table
  else pure (errorTable.getD err.toNat none)

/-! ## Arguments -/

/-- `va_arg(ap, int)` -/
def vaInt : List Arg → Except Stop (BitVec 32 × List Arg)
  | Arg.int n :: ap => pure (n, ap)
  | _ => throw Stop.args

/-- `va_arg(ap, long)`, which is as wide as `long long`. -/
def vaLong : List Arg → Except Stop (BitVec 64 × List Arg)
  | Arg.long n :: ap => pure (n, ap)
  | _ => throw Stop.args

/-- `va_arg(ap, void *)` -/
def vaPointer : List Arg → Except Stop (BitVec 64 × List Arg)
  | Arg.pointer a :: ap => pure (a, ap)
  | _ => throw Stop.args

/-- `va_arg(ap, char *)` -/
def vaString : List Arg → Except Stop (Option (List UInt8) × List Arg)
  | Arg.string s :: ap => pure (s, ap)
  | _ => throw Stop.args

/-- `getuint` -/
def getuint (ap : List Arg) (lflag : Int) : Except Stop (BitVec 64 × List Arg) :=
  if 2 ≤ lflag then vaLong ap
  else if lflag ≠ 0 then vaLong ap
  else vaInt ap >>= fun r => pure (r.1.setWidth 64, r.2)

/-- `getint` -/
def getint (ap : List Arg) (lflag : Int) : Except Stop (BitVec 64 × List Arg) :=
  if 2 ≤ lflag then vaLong ap
  else if lflag ≠ 0 then vaLong ap
  else vaInt ap >>= fun r => pure (r.1.signExtend 64, r.2)

/-! ## Directives -/

/-- A place in a format: the bytes before it, the last one first, and those from it on. -/
structure Cursor where
  before : List UInt8
  rest : List UInt8
  deriving DecidableEq, Repr

/-- `padc`, `width`, `precision`, `lflag` and `altflag` -/
structure Spec where
  padc : UInt8
  width : Int
  precision : Int
  lflag : Int
  altflag : Bool
  deriving DecidableEq, Repr

/-- The flags behind a `%`. -/
def Spec.start : Spec := { padc := ascii ' ', width := -1, precision := -1, lflag := 0, altflag := false }

/-- `process_precision` -/
def processPrecision (spec : Spec) (precision : Int) : Spec :=
  if spec.width < 0 then { spec with width := precision, precision := -1 } else { spec with precision := precision }

/-- The loop over the digits of a field width: `ch` is the last digit that was read. -/
def digitLoop (before : List UInt8) : List UInt8 → Int → UInt8 → Int × Cursor
  | [], precision, ch => (wrap32 (precision * 10 + ch.toNat - (ascii '0').toNat), ⟨before, []⟩)
  | next :: rest, precision, ch =>
      let precision := wrap32 (precision * 10 + ch.toNat - (ascii '0').toNat)
      if next < ascii '0' ∨ ascii '9' < next then (precision, ⟨before, next :: rest⟩)
      else digitLoop (next :: before) rest precision next

/-- What the `switch` has come to: the letter, and what was read before it. -/
structure Directive where
  ch : UInt8
  cursor : Cursor
  spec : Spec
  ap : List Arg

/-- `reswitch`, as long as the `switch` goes back to it. -/
def reswitch : Nat → Cursor → Spec → List Arg → Except Stop Directive
  | 0, _, _, _ => throw Stop.fuel
  | fuel + 1, c, spec, ap =>
      match c.rest with
      | [] => throw Stop.bounds
      | ch :: rest =>
          let c : Cursor := ⟨ch :: c.before, rest⟩
          if ch = ascii '-' then reswitch fuel c { spec with padc := ascii '-' } ap
          else if ch = ascii '0' then reswitch fuel c { spec with padc := ascii '0' } ap
          else if ascii '1' ≤ ch ∧ ch ≤ ascii '9' then
            let r := digitLoop c.before c.rest 0 ch
            reswitch fuel r.2 (processPrecision spec r.1) ap
          else if ch = ascii '*' then
            vaInt ap >>= fun r => reswitch fuel c (processPrecision spec r.1.toInt) r.2
          else if ch = ascii '.' then
            reswitch fuel c (if spec.width < 0 then { spec with width := 0 } else spec) ap
          else if ch = ascii '#' then reswitch fuel c { spec with altflag := true } ap
          else if ch = ascii 'l' then reswitch fuel c { spec with lflag := wrap32 (spec.lflag + 1) } ap
          else pure ⟨ch, c, spec, ap⟩

/-- The loop `for (; fmt[-1] != '%'; fmt --)` -/
def rewindLoop : List UInt8 → List UInt8 → Except Stop Cursor
  | [], _ => throw Stop.bounds
  | ch :: before, rest =>
      if ch ≠ ascii '%' then rewindLoop before (ch :: rest) else pure ⟨ch :: before, rest⟩

/-- Back behind the `%`: one step, and then as many as it takes. -/
def rewind (c : Cursor) : Except Stop Cursor :=
  match c.before with
  | [] => throw Stop.bounds
  | ch :: before => rewindLoop before (ch :: c.rest)

/-! ## Output -/

/-- Code that prints. -/
abbrev PrintM (σ : Type) := StateT σ (Except Stop)

/-- The result of code that does not print. -/
def ofExcept {σ α : Type} : Except Stop α → PrintM σ α
  | Except.ok a => pure a
  | Except.error e => throw e

section Output

variable {σ : Type} (putch : Int → σ → σ)

/-- A call of `putch`. -/
def emit (ch : Int) : PrintM σ Unit := modify (putch ch)

/-- A loop that prints one character again and again. -/
def padding (ch : UInt8) : Nat → PrintM σ Unit
  | 0 => pure ()
  | n + 1 => do
      emit putch ch.toNat
      padding ch n

/-- The bases of numbers. -/
inductive Base where
  | octal
  | decimal
  | hex
  deriving DecidableEq, Repr

def Base.toNat : Base → Nat
  | octal => 8
  | decimal => 10
  | hex => 16

theorem Base.two_le (base : Base) : 2 ≤ base.toNat := by
  cases base <;> decide

/-- `"0123456789abcdef"[mod]` -/
def digit (mod : Nat) : UInt8 := (text "0123456789abcdef").getD mod 0

theorem div_base_lt {base : Base} {num : Nat} (h : base.toNat ≤ num) : num / base.toNat < num :=
  Nat.div_lt_self ((Nat.lt_of_lt_of_le (by decide) base.two_le).trans_le h) base.two_le

/-- `printnum`. The loop `while (-- width > 0)` runs as often as its first value says. -/
def printnum (base : Base) (padc : UInt8) (num : Nat) (width : Int) : PrintM σ Unit :=
  if h : base.toNat ≤ num then do
    printnum base padc (num / base.toNat) (wrap32 (width - 1))
    emit putch (digit (num % base.toNat)).toNat
  else do
    padding putch padc (wrap32 (width - 1)).toNat
    emit putch (digit (num % base.toNat)).toNat
termination_by num
decreasing_by exact div_base_lt h

/-- `strnlen(p, precision)` -/
def strnlen (p : List UInt8) (precision : Int) : Nat := min p.length (precision % 2 ^ 64).toNat

/-- The loop over the characters of a string, with the `width` that it leaves. -/
def charLoop (altflag : Bool) : List UInt8 → Int → Int → PrintM σ Int
  | [], width, _ => pure width
  | ch :: p, width, precision =>
      if precision < 0 ∨ 0 ≤ precision - 1 then do
        (if altflag = true ∧ (ch < ascii ' ' ∨ ascii '~' < ch) then emit putch (ascii '?').toNat
          else emit putch ch.toNat)
        charLoop altflag p (wrap32 (width - 1)) (if precision < 0 then precision else precision - 1)
      else pure width

/-- The conversion `%s` of a string that is not `NULL`. -/
def putString (spec : Spec) (p : List UInt8) : PrintM σ Unit := do
  let left := wrap32 (spec.width - strnlen p spec.precision)
  let pads := 0 < spec.width ∧ spec.padc ≠ ascii '-'
  (if pads then padding putch spec.padc left.toNat else pure ())
  let width ← charLoop putch spec.altflag p (if pads then (if 0 < left then 0 else left) else spec.width) spec.precision
  padding putch (ascii ' ') width.toNat

/-- The `switch` on a letter that is no flag, where `printfmt` is called for `%e`. -/
def convert (printfmt : List UInt8 → List Arg → PrintM σ Unit) (d : Directive) : PrintM σ (Cursor × List Arg) :=
  if d.ch = ascii 'c' then do
    let r ← ofExcept (vaInt d.ap)
    emit putch r.1.toInt
    pure (d.cursor, r.2)
  else if d.ch = ascii 'e' then do
    let r ← ofExcept (vaInt d.ap)
    let err := if r.1.toInt < 0 then wrap32 (-r.1.toInt) else r.1.toInt
    let p ← ofExcept (errorString err)
    (match p with
      | none => printfmt (text "error %d") [Arg.int (BitVec.ofInt 32 err)]
      | some p => printfmt (text "%s") [Arg.string (some p)])
    pure (d.cursor, r.2)
  else if d.ch = ascii 's' then do
    let r ← ofExcept (vaString d.ap)
    putString putch d.spec (r.1.getD (text "(null)"))
    pure (d.cursor, r.2)
  else if d.ch = ascii 'd' then do
    let r ← ofExcept (getint d.ap d.spec.lflag)
    (if r.1.toInt < 0 then do
      emit putch (ascii '-').toNat
      printnum putch Base.decimal d.spec.padc (-r.1).toNat d.spec.width
    else printnum putch Base.decimal d.spec.padc r.1.toNat d.spec.width)
    pure (d.cursor, r.2)
  else if d.ch = ascii 'u' then do
    let r ← ofExcept (getuint d.ap d.spec.lflag)
    printnum putch Base.decimal d.spec.padc r.1.toNat d.spec.width
    pure (d.cursor, r.2)
  else if d.ch = ascii 'o' then do
    let r ← ofExcept (getuint d.ap d.spec.lflag)
    printnum putch Base.octal d.spec.padc r.1.toNat d.spec.width
    pure (d.cursor, r.2)
  else if d.ch = ascii 'p' then do
    emit putch (ascii '0').toNat
    emit putch (ascii 'x').toNat
    let r ← ofExcept (vaPointer d.ap)
    printnum putch Base.hex d.spec.padc r.1.toNat d.spec.width
    pure (d.cursor, r.2)
  else if d.ch = ascii 'x' then do
    let r ← ofExcept (getuint d.ap d.spec.lflag)
    printnum putch Base.hex d.spec.padc r.1.toNat d.spec.width
    pure (d.cursor, r.2)
  else if d.ch = ascii '%' then do
    emit putch d.ch.toNat
    pure (d.cursor, d.ap)
  else do
    emit putch (ascii '%').toNat
    let c ← ofExcept (rewind d.cursor)
    pure (c, d.ap)

/-- The inner `while` loop: it ends behind a `%`, with `true`, or behind the NUL. -/
def literal (before : List UInt8) : List UInt8 → PrintM σ (Bool × Cursor)
  | [] => throw Stop.bounds
  | ch :: rest =>
      if ch ≠ ascii '%' then
        if ch = 0 then pure (false, ⟨ch :: before, rest⟩)
        else do
          emit putch ch.toNat
          literal (ch :: before) rest
      else pure (true, ⟨ch :: before, rest⟩)

/-- The outer loop of `vprintfmt`, with the place where it returns. -/
def formatLoop (printfmt : List UInt8 → List Arg → PrintM σ Unit) : Nat → Cursor → List Arg → PrintM σ Cursor
  | 0, _, _ => throw Stop.fuel
  | fuel + 1, c, ap => do
      let r ← literal putch c.before c.rest
      if r.1 = false then pure r.2
      else do
        let d ← ofExcept (reswitch (r.2.rest.length + 1) r.2 Spec.start ap)
        let q ← convert putch printfmt d
        formatLoop printfmt fuel q.1 q.2

/-- `vprintfmt`, which calls itself at most `depth` times for `%e`. -/
def vprintfmtLevel : Nat → List UInt8 → List Arg → PrintM σ Cursor
  | 0, _, _ => throw Stop.fuel
  | depth + 1, fmt, ap =>
      formatLoop putch (fun fmt ap => vprintfmtLevel depth fmt ap >>= fun _ => pure ()) (fmt.length + 1)
        ⟨[], fmt ++ [0]⟩ ap

/-- `vprintfmt`. The formats that are printed for `%e` have no `%e`. -/
def vprintfmt (fmt : List UInt8) (ap : List Arg) : PrintM σ Cursor := vprintfmtLevel putch 2 fmt ap

end Output

/-! ## vsnprintf -/

/-- `struct sprintbuf`, with the memory it is about. -/
structure Sprintbuf where
  buf : Nat
  ebuf : Nat
  cnt : Int
  mem : Nat → UInt8

/-- `sprintputch` -/
def sprintputch (ch : Int) (b : Sprintbuf) : Sprintbuf :=
  let b := { b with cnt := wrap32 (b.cnt + 1) }
  if b.buf < b.ebuf then { b with buf := b.buf + 1, mem := Function.update b.mem b.buf (UInt8.ofInt ch) } else b

/-- `vsnprintf`, with the memory after it. -/
def vsnprintf (mem : Nat → UInt8) (str size : Nat) (fmt : List UInt8) (ap : List Arg) :
    Except Stop (Int × (Nat → UInt8)) :=
  let b : Sprintbuf := { buf := str, ebuf := (str + size + (2 ^ 64 - 1)) % 2 ^ 64, cnt := 0, mem := mem }
  if str = 0 ∨ b.ebuf < b.buf then pure (-eInval, mem)
  else vprintfmt sprintputch fmt ap b >>= fun r => pure (r.2.cnt, Function.update r.2.mem r.2.buf 0)

end Printfmt
end TriOS
