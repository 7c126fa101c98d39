import TriOS.Libs.Printfmt
import TriOS.Library.Hoare
import TriOS.Library.Lockstep
import TriOS.Library.CString

/-!
# PrintfmtRuns — what a format takes and prints

The arguments that a format takes can be read off it, letter by letter. With arguments that match, `vprintfmt` returns
behind the NUL of the format, unless `%e` is given the most negative `int`. It does the same to every operation that
takes the characters, so that `vsnprintf` writes the start of what it prints.
-/

namespace TriOS
namespace Printfmt

open Hoare CString

/-! ## The arguments of a format -/

/-- What `va_arg` takes, where an error code is set apart from the other integers. -/
inductive Kind where
  | int
  | long
  | pointer
  | string
  | error
  deriving DecidableEq, Repr

/-- The flags, but for `*` and `l`. -/
def Plain (ch : UInt8) : Prop :=
  ch = ascii '-' ∨ ch = ascii '0' ∨ (ascii '1' ≤ ch ∧ ch ≤ ascii '9') ∨ ch = ascii '.' ∨ ch = ascii '#'

instance : DecidablePred Plain := fun _ => inferInstanceAs (Decidable (_ ∨ _))

/-- What a number takes. -/
def numberKind (lflag : Int) : Kind := if lflag = 0 then Kind.int else Kind.long

/-- What a letter takes. -/
def letterKinds (ch : UInt8) (lflag : Int) : List Kind :=
  if ch = ascii 'c' then [Kind.int]
  else if ch = ascii 'e' then [Kind.error]
  else if ch = ascii 's' then [Kind.string]
  else if ch = ascii 'd' ∨ ch = ascii 'u' ∨ ch = ascii 'o' then [numberKind lflag]
  else if ch = ascii 'p' then [Kind.pointer]
  else if ch = ascii 'x' then [numberKind lflag]
  else []

/-- What a format takes, from outside a directive, or from inside one with its `lflag`. -/
def kinds : Option Int → List UInt8 → List Kind
  | _, [] => []
  | none, ch :: rest => if ch = ascii '%' then kinds (some 0) rest else if ch = 0 then [] else kinds none rest
  | some lflag, ch :: rest =>
      if Plain ch then kinds (some lflag) rest
      else if ch = ascii '*' then Kind.int :: kinds (some lflag) rest
      else if ch = ascii 'l' then kinds (some (wrap32 (lflag + 1))) rest
      else letterKinds ch lflag ++ if ch = 0 then [] else kinds none rest

theorem kinds_outside (ch : UInt8) (rest : List UInt8) :
    kinds none (ch :: rest) =
      if ch = ascii '%' then kinds (some 0) rest else if ch = 0 then [] else kinds none rest := rfl

theorem kinds_inside (lflag : Int) (ch : UInt8) (rest : List UInt8) :
    kinds (some lflag) (ch :: rest) =
      if Plain ch then kinds (some lflag) rest
      else if ch = ascii '*' then Kind.int :: kinds (some lflag) rest
      else if ch = ascii 'l' then kinds (some (wrap32 (lflag + 1))) rest
      else letterKinds ch lflag ++ if ch = 0 then [] else kinds none rest := rfl

/-- An argument is of a kind. -/
def Kind.Fits : Kind → Arg → Prop
  | int, Arg.int _ => True
  | long, Arg.long _ => True
  | pointer, Arg.pointer _ => True
  | string, Arg.string _ => True
  | error, Arg.int _ => True
  | _, _ => False

/-- The arguments are what is taken, with others behind them or not. -/
def Matches : List Kind → List Arg → Prop
  | [], _ => True
  | _ :: _, [] => False
  | kind :: ks, a :: ap => kind.Fits a ∧ Matches ks ap

/-- No error code among the arguments is the most negative `int`. -/
def CodesFit : List Kind → List Arg → Prop
  | kind :: ks, a :: ap => (kind = Kind.error → a ≠ Arg.int (BitVec.intMin 32)) ∧ CodesFit ks ap
  | _, _ => True

/-! ## One directive -/

section Directive

variable {c : Cursor} {spec : Spec} {ap : List Arg} {ch : UInt8} {before rest : List UInt8} {fuel : Nat}

/-- What remains to be taken at a directive that was read. -/
def Directive.kinds (d : Directive) : List Kind :=
  letterKinds d.ch d.spec.lflag ++ if d.ch = 0 then [] else Printfmt.kinds none d.cursor.rest

/-- A directive that was read: what was before the letter are flags, and the arguments behind it match. -/
structure Read (c : Cursor) (ap : List Arg) (ks : List Kind) (d : Directive) : Prop where
  flags : ∃ flags, d.cursor.before = d.ch :: flags.reverse ++ c.before ∧ c.rest = flags ++ d.ch :: d.cursor.rest ∧
    ∀ ch ∈ flags, ch ≠ ascii '%' ∧ ch ≠ 0
  suffix : d.kinds <:+ ks
  matched : Matches d.kinds d.ap
  codes : CodesFit d.kinds d.ap ↔ CodesFit ks ap

/-- A directive that is read from behind some flags is read from before them. -/
theorem Read.push {c c' : Cursor} {ap ap' : List Arg} {ks ks' : List Kind} {d : Directive} {flags : List UInt8}
    (h : Read c' ap' ks' d) (hbefore : c'.before = flags.reverse ++ c.before) (hrest : c.rest = flags ++ c'.rest)
    (hflags : ∀ ch ∈ flags, ch ≠ ascii '%' ∧ ch ≠ 0) (hsuffix : ks' <:+ ks) (hcodes : CodesFit ks' ap' ↔ CodesFit ks ap) :
    Read c ap ks d := by
  obtain ⟨more, hb, hr, hmore⟩ := h.flags
  refine ⟨⟨flags ++ more, ?_, ?_, fun ch hch => ?_⟩, h.suffix.trans hsuffix, h.matched, h.codes.trans hcodes⟩
  · rw [hb, hbefore, List.reverse_append, List.cons_append, List.cons_append, List.append_assoc]
  · rw [hrest, hr, List.append_assoc]
  · rcases List.mem_append.1 hch with hch | hch
    · exact hflags ch hch
    · exact hmore ch hch

/-- The loop over the digits of a width passes digits only. -/
theorem digitLoop_flags (before rest : List UInt8) (precision : Int) (ch : UInt8) :
    ∃ digits, (digitLoop before rest precision ch).2.before = digits.reverse ++ before ∧
      rest = digits ++ (digitLoop before rest precision ch).2.rest ∧
      ∀ ch ∈ digits, ascii '0' ≤ ch ∧ ch ≤ ascii '9' := by
  induction rest generalizing before precision ch with
  | nil => exact ⟨[], rfl, rfl, fun _ h => absurd h List.not_mem_nil⟩
  | cons next rest ih =>
      unfold digitLoop
      by_cases hnext : next < ascii '0' ∨ ascii '9' < next
      · dsimp only
        rw [if_pos hnext]
        exact ⟨[], rfl, rfl, fun _ h => absurd h List.not_mem_nil⟩
      · dsimp only
        rw [if_neg hnext]
        obtain ⟨digits, hb, hr, hd⟩ := ih (next :: before) (wrap32 (precision * 10 + ch.toNat - (ascii '0').toNat)) next
        refine ⟨next :: digits, ?_, ?_, fun x hx => ?_⟩
        · rw [hb, List.reverse_cons, List.append_assoc, List.singleton_append]
        · rw [List.cons_append, ← hr]
        · rcases List.mem_cons.1 hx with rfl | hx
          · exact ⟨UInt8.not_lt.1 fun h => hnext (Or.inl h), UInt8.not_lt.1 fun h => hnext (Or.inr h)⟩
          · exact hd x hx

/-- Digits take no argument. -/
theorem kinds_digits {digits : List UInt8} {lflag : Int} (h : ∀ ch ∈ digits, ascii '0' ≤ ch ∧ ch ≤ ascii '9') :
    kinds (some lflag) (digits ++ rest) = kinds (some lflag) rest := by
  induction digits with
  | nil => rfl
  | cons ch digits ih =>
      obtain ⟨hlow, hhigh⟩ := h ch List.mem_cons_self
      have hplain : Plain ch := by
        by_cases hzero : ch = ascii '0'
        · exact Or.inr (Or.inl hzero)
        · refine Or.inr (Or.inr (Or.inl ⟨?_, hhigh⟩))
          have hne : ch.toNat ≠ (ascii '0').toNat := fun heq => hzero (UInt8.toNat_inj.1 heq)
          have hle := UInt8.le_iff_toNat_le.1 hlow
          have hzero' : (ascii '0').toNat = 48 := rfl
          have hone' : (ascii '1').toNat = 49 := rfl
          rw [UInt8.le_iff_toNat_le]
          omega
      rw [List.cons_append, kinds_inside, if_pos hplain]
      exact ih fun x hx => h x (List.mem_cons_of_mem ch hx)

/-- An argument where an `int` is taken. -/
theorem matches_int {ks : List Kind} (h : Matches (Kind.int :: ks) ap) : ∃ n ap', ap = Arg.int n :: ap' := by
  cases ap with
  | nil => exact absurd h id
  | cons a ap' =>
      cases a with
      | int n => exact ⟨n, ap', rfl⟩
      | long n => exact absurd h.1 id
      | pointer a => exact absurd h.1 id
      | string t => exact absurd h.1 id

theorem processPrecision_lflag (spec : Spec) (precision : Int) : (processPrecision spec precision).lflag = spec.lflag := by
  unfold processPrecision
  split
  · rfl
  · rfl

/-- A flag that takes no argument. -/
theorem Read.flag {d : Directive} {lflag lflag' : Int} (h : Read ⟨ch :: before, rest⟩ ap (kinds (some lflag') rest) d)
    (hpercent : ch ≠ ascii '%') (hne : ch ≠ 0)
    (hkinds : kinds (some lflag) (ch :: rest) = kinds (some lflag') rest) :
    Read ⟨before, ch :: rest⟩ ap (kinds (some lflag) (ch :: rest)) d := by
  have hbefore : ch :: before = [ch].reverse ++ before := rfl
  refine h.push hbefore rfl (fun x hx => ?_) (hkinds ▸ List.suffix_refl _) (by rw [hkinds])
  rw [List.mem_singleton.1 hx]
  exact ⟨hpercent, hne⟩

/-- A directive is read up to its letter. -/
theorem reswitch_read (hnul : (0 : UInt8) ∈ c.rest) (hfuel : c.rest.length < fuel)
    (hmatch : Matches (kinds (some spec.lflag) c.rest) ap) :
    ∃ d, reswitch fuel c spec ap = Except.ok d ∧ Read c ap (kinds (some spec.lflag) c.rest) d := by
  induction fuel generalizing c spec ap with
  | zero => exact absurd hfuel (Nat.not_lt_zero _)
  | succ fuel ih =>
      obtain ⟨before, rest⟩ := c
      cases rest with
      | nil => exact absurd hnul List.not_mem_nil
      | cons ch rest =>
          have hlen : rest.length < fuel := Nat.lt_of_succ_lt_succ hfuel
          have hzero : ch ≠ 0 → (0 : UInt8) ∈ rest := fun hne =>
            (List.mem_cons.1 hnul).resolve_left fun heq => hne heq.symm
          dsimp only at hmatch ⊢
          have hflag : ∀ (spec' : Spec), ch ≠ ascii '%' → ch ≠ 0 →
              kinds (some spec.lflag) (ch :: rest) = kinds (some spec'.lflag) rest →
              ∃ d, reswitch fuel ⟨ch :: before, rest⟩ spec' ap = Except.ok d ∧
                Read ⟨before, ch :: rest⟩ ap (kinds (some spec.lflag) (ch :: rest)) d := by
            intro spec' hpercent hne hkinds
            rw [hkinds] at hmatch
            obtain ⟨d, hd, hread⟩ := @ih ⟨ch :: before, rest⟩ spec' ap (hzero hne) hlen hmatch
            exact ⟨d, hd, hread.flag hpercent hne hkinds⟩
          have hplain : Plain ch → kinds (some spec.lflag) (ch :: rest) = kinds (some spec.lflag) rest := fun h => by
            rw [kinds_inside, if_pos h]
          unfold reswitch
          dsimp only
          by_cases hminus : ch = ascii '-'
          · rw [if_pos hminus]
            exact hflag _ (by rw [hminus]; decide) (by rw [hminus]; decide) (hplain (Or.inl hminus))
          rw [if_neg hminus]
          by_cases hpad : ch = ascii '0'
          · rw [if_pos hpad]
            exact hflag _ (by rw [hpad]; decide) (by rw [hpad]; decide) (hplain (Or.inr (Or.inl hpad)))
          rw [if_neg hpad]
          by_cases hdigit : ascii '1' ≤ ch ∧ ch ≤ ascii '9'
          · rw [if_pos hdigit]
            obtain ⟨digits, hb, hr, hd⟩ := digitLoop_flags (ch :: before) rest 0 ch
            have hkinds : kinds (some spec.lflag) (ch :: rest) =
                kinds (some spec.lflag) (digitLoop (ch :: before) rest 0 ch).2.rest := by
              rw [hplain (Or.inr (Or.inr (Or.inl hdigit)))]
              nth_rewrite 1 [hr]
              exact kinds_digits hd
            have hrange : ∀ x ∈ ch :: digits, ascii '0' ≤ x := by
              intro x hx
              rcases List.mem_cons.1 hx with rfl | hx
              · exact UInt8.le_trans (by decide) hdigit.1
              · exact (hd x hx).1
            have hother : ∀ x ∈ ch :: digits, x ≠ ascii '%' ∧ x ≠ 0 := by
              intro x hx
              constructor
              · rintro rfl
                exact absurd (hrange _ hx) (by decide)
              · rintro rfl
                exact absurd (hrange _ hx) (by decide)
            have hnul' : (0 : UInt8) ∈ (digitLoop (ch :: before) rest 0 ch).2.rest := by
              have hmem := hzero (hother ch List.mem_cons_self).2
              rw [hr] at hmem
              refine (List.mem_append.1 hmem).resolve_left fun hin => ?_
              exact (hother 0 (List.mem_cons_of_mem ch hin)).2 rfl
            have hlen' : (digitLoop (ch :: before) rest 0 ch).2.rest.length < fuel := by
              have hle := congrArg List.length hr
              rw [List.length_append] at hle
              omega
            rw [hkinds, ← processPrecision_lflag spec (digitLoop (ch :: before) rest 0 ch).1] at hmatch
            obtain ⟨d, hrun, hread⟩ := ih hnul' hlen' hmatch
            refine ⟨d, hrun, ?_⟩
            rw [processPrecision_lflag] at hread
            refine Read.push hread ?_ ?_ hother (hkinds ▸ List.suffix_refl _) (by rw [hkinds])
            · rw [hb, List.reverse_cons, List.append_assoc, List.singleton_append]
            · rw [List.cons_append, ← hr]
          rw [if_neg hdigit]
          by_cases hstar : ch = ascii '*'
          · rw [if_pos hstar]
            have hnot : ¬ Plain ch := by
              rw [hstar]
              decide
            have hkinds : kinds (some spec.lflag) (ch :: rest) = Kind.int :: kinds (some spec.lflag) rest := by
              rw [kinds_inside, if_neg hnot, if_pos hstar]
            have hstar' : ∀ x ∈ [ch], x ≠ ascii '%' ∧ x ≠ 0 := by
              intro x hx
              rw [List.mem_singleton.1 hx, hstar]
              decide
            rw [hkinds] at hmatch ⊢
            obtain ⟨n, ap', rfl⟩ : ∃ n ap', ap = Arg.int n :: ap' := matches_int hmatch
            have hrest : Matches (kinds (some (processPrecision spec n.toInt).lflag) rest) ap' := by
              rw [processPrecision_lflag]
              exact hmatch.2
            obtain ⟨d, hrun, hread⟩ := @ih ⟨ch :: before, rest⟩ (processPrecision spec n.toInt) ap'
              (hzero (hstar' ch List.mem_cons_self).2) hlen hrest
            have hbefore : ch :: before = [ch].reverse ++ before := rfl
            rw [processPrecision_lflag] at hread
            refine ⟨d, hrun, hread.push hbefore rfl hstar' (List.suffix_cons _ _) ?_⟩
            exact ⟨fun h => ⟨fun hkind => Kind.noConfusion hkind, h⟩, And.right⟩
          rw [if_neg hstar]
          by_cases hdot : ch = ascii '.'
          · rw [if_pos hdot]
            refine hflag _ (by rw [hdot]; decide) (by rw [hdot]; decide) ?_
            rw [hplain (Or.inr (Or.inr (Or.inr (Or.inl hdot))))]
            split
            · rfl
            · rfl
          rw [if_neg hdot]
          by_cases hsharp : ch = ascii '#'
          · rw [if_pos hsharp]
            exact hflag _ (by rw [hsharp]; decide) (by rw [hsharp]; decide)
              (hplain (Or.inr (Or.inr (Or.inr (Or.inr hsharp)))))
          rw [if_neg hsharp]
          have hnot : ¬ Plain ch := by
            rintro (h | h | h | h | h)
            · exact hminus h
            · exact hpad h
            · exact hdigit h
            · exact hdot h
            · exact hsharp h
          by_cases hl : ch = ascii 'l'
          · rw [if_pos hl]
            refine hflag { spec with lflag := wrap32 (spec.lflag + 1) } (by rw [hl]; decide) (by rw [hl]; decide) ?_
            rw [kinds_inside, if_neg hnot, if_neg hstar, if_pos hl]
          rw [if_neg hl]
          have hkinds : kinds (some spec.lflag) (ch :: rest) =
              letterKinds ch spec.lflag ++ if ch = 0 then [] else kinds none rest := by
            rw [kinds_inside, if_neg hnot, if_neg hstar, if_neg hl]
          refine ⟨_, rfl, ⟨[], rfl, rfl, fun _ h => absurd h List.not_mem_nil⟩, ?_, ?_, ?_⟩
          · rw [hkinds]
            exact List.suffix_refl _
          · rw [hkinds] at hmatch
            exact hmatch
          · rw [hkinds]
            exact Iff.rfl

end Directive

/-! ## Arguments -/

section Arguments

variable {ap : List Arg} {ks : List Kind} {lflag : Int}

/-- What was taken was there, and the arguments behind it match what is taken later. -/
structure Taken {α : Type} (take : List Arg → Except Stop (α × List Arg)) (ks ks' : List Kind) (ap : List Arg) (a : α)
    (ap' : List Arg) : Prop where
  run : take ap = Except.ok (a, ap')
  matched : Matches ks' ap'
  codes : CodesFit ks ap ↔ CodesFit ks' ap'

theorem codesFit_cons {kind : Kind} (a : Arg) (h : kind ≠ Kind.error) : CodesFit (kind :: ks) (a :: ap) ↔ CodesFit ks ap :=
  ⟨And.right, fun hrest => ⟨fun heq => absurd heq h, hrest⟩⟩

theorem vaInt_spec (h : Matches (Kind.int :: ks) ap) : ∃ n ap', Taken vaInt (Kind.int :: ks) ks ap n ap' := by
  obtain ⟨n, ap', rfl⟩ := matches_int h
  exact ⟨n, ap', rfl, h.2, codesFit_cons _ (by decide)⟩

theorem vaLong_spec (h : Matches (Kind.long :: ks) ap) : ∃ n ap', Taken vaLong (Kind.long :: ks) ks ap n ap' := by
  cases ap with
  | nil => exact absurd h id
  | cons a ap' =>
      cases a with
      | long n => exact ⟨n, ap', rfl, h.2, codesFit_cons _ (by decide)⟩
      | int n => exact absurd h.1 id
      | pointer a => exact absurd h.1 id
      | string t => exact absurd h.1 id

theorem vaPointer_spec (h : Matches (Kind.pointer :: ks) ap) :
    ∃ n ap', Taken vaPointer (Kind.pointer :: ks) ks ap n ap' := by
  cases ap with
  | nil => exact absurd h id
  | cons a ap' =>
      cases a with
      | pointer a => exact ⟨a, ap', rfl, h.2, codesFit_cons _ (by decide)⟩
      | int n => exact absurd h.1 id
      | long n => exact absurd h.1 id
      | string t => exact absurd h.1 id

theorem vaString_spec (h : Matches (Kind.string :: ks) ap) :
    ∃ p ap', Taken vaString (Kind.string :: ks) ks ap p ap' := by
  cases ap with
  | nil => exact absurd h id
  | cons a ap' =>
      cases a with
      | string t => exact ⟨t, ap', rfl, h.2, codesFit_cons _ (by decide)⟩
      | int n => exact absurd h.1 id
      | long n => exact absurd h.1 id
      | pointer a => exact absurd h.1 id

theorem getuint_spec (h : Matches (numberKind lflag :: ks) ap) :
    ∃ n ap', Taken (fun ap => getuint ap lflag) (numberKind lflag :: ks) ks ap n ap' := by
  unfold numberKind at h ⊢
  by_cases hl : lflag = 0
  · rw [if_pos hl] at h ⊢
    obtain ⟨n, ap', htaken⟩ := vaInt_spec h
    refine ⟨n.setWidth 64, ap', ?_, htaken.matched, htaken.codes⟩
    unfold getuint
    rw [if_neg (by omega), if_neg (not_not.2 hl), htaken.run]
    rfl
  · rw [if_neg hl] at h ⊢
    obtain ⟨n, ap', htaken⟩ := vaLong_spec h
    refine ⟨n, ap', ?_, htaken.matched, htaken.codes⟩
    unfold getuint
    rw [if_pos hl, ite_self]
    exact htaken.run

theorem getint_spec (h : Matches (numberKind lflag :: ks) ap) :
    ∃ n ap', Taken (fun ap => getint ap lflag) (numberKind lflag :: ks) ks ap n ap' := by
  unfold numberKind at h ⊢
  by_cases hl : lflag = 0
  · rw [if_pos hl] at h ⊢
    obtain ⟨n, ap', htaken⟩ := vaInt_spec h
    refine ⟨n.signExtend 64, ap', ?_, htaken.matched, htaken.codes⟩
    unfold getint
    rw [if_neg (by omega), if_neg (not_not.2 hl), htaken.run]
    rfl
  · rw [if_neg hl] at h ⊢
    obtain ⟨n, ap', htaken⟩ := vaLong_spec h
    refine ⟨n, ap', ?_, htaken.matched, htaken.codes⟩
    unfold getint
    rw [if_pos hl, ite_self]
    exact htaken.run

/-- The error code of `%e`, as the code makes it. -/
def errorCode (n : BitVec 32) : Int := if n.toInt < 0 then wrap32 (-n.toInt) else n.toInt

/-- The table is read out of its range for the most negative `int` only. -/
theorem errorString_errorCode (n : BitVec 32) :
    (n ≠ BitVec.intMin 32 ∧ ∃ p, errorString (errorCode n) = Except.ok p) ∨
      (n = BitVec.intMin 32 ∧ errorString (errorCode n) = Except.error Stop.table) := by
  have hhigh : n.toInt < 2 ^ 31 := BitVec.toInt_lt
  have hlow : -2 ^ 31 ≤ n.toInt := BitVec.le_toInt n
  by_cases hmin : n = BitVec.intMin 32
  · subst hmin
    exact Or.inr ⟨rfl, by decide⟩
  · have hne : n.toInt ≠ -2 ^ 31 := fun heq => hmin (BitVec.toInt_inj.1 (heq.trans (by decide)))
    have hpos : 0 ≤ errorCode n := by
      unfold errorCode
      split
      · have hwrap : wrap32 (-n.toInt) = -n.toInt :=
          Int.bmod_eq_of_le_mul_two (by norm_num; omega) (by norm_num; omega)
        rw [hwrap]
        omega
      · omega
    refine Or.inl ⟨hmin, ?_⟩
    unfold errorString
    split
    · exact ⟨_, rfl⟩
    · rw [if_neg (not_lt.2 hpos)]
      exact ⟨_, rfl⟩

end Arguments

/-! ## What returns -/

section Output

variable {σ : Type} {putch : Int → σ → σ} {E : Stop → Prop} {s : σ}

theorem triple_emit {Q : Unit → σ → Prop} (ch : Int) : Triple E (emit putch ch) s Q ↔ Q () (putch ch s) := Iff.rfl

theorem triple_ofExcept_ok {α : Type} {a : α} {Q : α → σ → Prop} :
    Triple E (ofExcept (Except.ok a)) s Q ↔ Q a s := Iff.rfl

theorem triple_ofExcept_error {α : Type} {e : Stop} {Q : α → σ → Prop} :
    Triple E (ofExcept (Except.error e : Except Stop α)) s Q ↔ E e := Iff.rfl

theorem padding_returns (ch : UInt8) (n : Nat) : Triple E (padding putch ch n) s fun _ _ => True := by
  induction n generalizing s with
  | zero => trivial
  | succ n ih =>
      unfold padding
      rw [triple_bind, triple_emit]
      exact ih

theorem printnum_returns (base : Base) (padc : UInt8) (num : Nat) (width : Int) :
    Triple E (printnum putch base padc num width) s fun _ _ => True := by
  induction num using Nat.strong_induction_on generalizing s width with
  | _ num ih =>
      unfold printnum
      by_cases h : base.toNat ≤ num
      · rw [dif_pos h]
        exact (ih _ (div_base_lt h) _).bind fun _ _ _ => trivial
      · rw [dif_neg h]
        exact (padding_returns padc _).bind fun _ _ _ => trivial

theorem charLoop_returns (altflag : Bool) (p : List UInt8) (width precision : Int) :
    Triple E (charLoop putch altflag p width precision) s fun _ _ => True := by
  induction p generalizing s width precision with
  | nil => trivial
  | cons ch p ih =>
      unfold charLoop
      refine triple_ite (fun _ => ?_) fun _ => trivial
      have hput : Triple E (if altflag = true ∧ (ch < ascii ' ' ∨ ascii '~' < ch) then emit putch (ascii '?').toNat
          else emit putch ch.toNat) s fun _ _ => True :=
        triple_ite (fun _ => (triple_emit _).2 trivial) fun _ => (triple_emit _).2 trivial
      exact hput.bind fun _ _ _ => ih _ _

theorem putString_returns (spec : Spec) (p : List UInt8) : Triple E (putString putch spec p) s fun _ _ => True := by
  unfold putString
  have hpads : Triple E (if 0 < spec.width ∧ spec.padc ≠ ascii '-'
      then padding putch spec.padc (wrap32 (spec.width - strnlen p spec.precision)).toNat else pure ()) s
        fun _ _ => True :=
    triple_ite (fun _ => padding_returns spec.padc _) fun _ => triple_pure.2 trivial
  refine hpads.bind fun _ _ _ => ?_
  exact (charLoop_returns _ _ _ _).bind fun _ _ _ => padding_returns _ _

end Output

/-! ## The whole format -/

section Format

variable {σ : Type} {putch : Int → σ → σ} {printfmt : List UInt8 → List Arg → PrintM σ Unit} {c c' : Cursor}
  {ap : List Arg} {ks : List Kind} {d : Directive} {before flags rest : List UInt8} {s : σ} {fuel : Nat}

/-- The cursor has moved in the format, and no `%` is before it again. -/
structure Advanced (c c' : Cursor) : Prop where
  whole : c'.before.reverse ++ c'.rest = c.before.reverse ++ c.rest
  nul : (0 : UInt8) ∈ c'.rest
  count : c'.rest.count (ascii '%') ≤ c.rest.count (ascii '%')

theorem Read.advanced (h : Read c ap ks d) (hnul : (0 : UInt8) ∈ c.rest) (hch : d.ch ≠ 0) : Advanced c d.cursor := by
  obtain ⟨flags, hb, hr, hflags⟩ := h.flags
  refine ⟨?_, ?_, ?_⟩
  · rw [hb, hr]
    simp
  · rw [hr] at hnul
    rcases List.mem_append.1 hnul with hmem | hmem
    · exact absurd rfl (hflags 0 hmem).2
    · exact (List.mem_cons.1 hmem).resolve_left fun heq => hch heq.symm
  · rw [hr, List.count_append]
    exact (List.count_le_count_cons).trans (Nat.le_add_left _ _)

/-- Outside of directives, what is printed literally takes nothing. -/
theorem kinds_literal (hflags : ∀ ch ∈ flags, ch ≠ ascii '%' ∧ ch ≠ 0) :
    kinds none (flags ++ rest) = kinds none rest := by
  induction flags with
  | nil => rfl
  | cons ch flags ih =>
      obtain ⟨hpercent, hne⟩ := hflags ch List.mem_cons_self
      rw [List.cons_append, kinds_outside, if_neg hpercent, if_neg hne]
      exact ih fun x hx => hflags x (List.mem_cons_of_mem ch hx)

theorem rewindLoop_spec (hflags : ∀ ch ∈ flags, ch ≠ ascii '%' ∧ ch ≠ 0) :
    rewindLoop (flags.reverse ++ ascii '%' :: before) rest = Except.ok ⟨ascii '%' :: before, flags ++ rest⟩ := by
  induction flags using List.reverseRecOn generalizing rest with
  | nil =>
      unfold rewindLoop
      exact if_neg (not_not.2 rfl)
  | append_singleton flags ch ih =>
      have hch := (hflags ch (List.mem_append_right flags List.mem_cons_self)).1
      rw [List.reverse_append, List.reverse_singleton, List.singleton_append, List.cons_append]
      unfold rewindLoop
      rw [if_pos hch, ih fun x hx => hflags x (List.mem_append_left _ hx), List.append_assoc, List.singleton_append]

/-- From a letter that is unknown, the cursor goes back behind the `%`. -/
theorem Read.rewind (h : Read c ap ks d) (hc : c.before = ascii '%' :: before) :
    Printfmt.rewind d.cursor = Except.ok c := by
  obtain ⟨flags, hb, hr, hflags⟩ := h.flags
  unfold Printfmt.rewind
  rw [hb]
  dsimp only [List.cons_append]
  rw [hc, rewindLoop_spec hflags, ← hr, ← hc]

/-- Nothing stops. -/
def Never (_ : Stop) : Prop := False

/-- Code that does not stop does not stop for any reason. -/
theorem Triple.quiet {E : Stop → Prop} {f : PrintM σ Unit} {Q : Unit → σ → Prop} (h : Triple Never f s Q) :
    Triple E f s Q :=
  h.mono_error fun _ => False.elim

theorem Triple.returns {α : Type} {f : PrintM σ α} {Q : α → σ → Prop} (h : Triple Never f s Q) :
    ∃ a t, f s = Except.ok (a, t) := by
  cases hf : f s with
  | error e => exact False.elim (h.of_error hf)
  | ok x => exact ⟨x.1, x.2, rfl⟩

/-- What `%e` prints with `printfmt` returns. -/
def ErrorsPrint (printfmt : List UInt8 → List Arg → PrintM σ Unit) : Prop :=
  ∀ s, (∀ n, Triple Never (printfmt (text "error %d") [Arg.int n]) s fun _ _ => True) ∧
    ∀ p, Triple Never (printfmt (text "%s") [Arg.string (some p)]) s fun _ _ => True

/-- The only way to stop is an error code out of the range of the table. -/
def OnlyTable (fit : Prop) (e : Stop) : Prop := e = Stop.table ∧ ¬ fit

theorem Directive.kinds_of_ne (hch : d.ch ≠ 0) :
    d.kinds = letterKinds d.ch d.spec.lflag ++ Printfmt.kinds none d.cursor.rest := by
  unfold Directive.kinds
  rw [if_neg hch]

/-- After a conversion the cursor has moved, and the arguments that are left match what is left of the format. -/
def Converted (c : Cursor) (d : Directive) (q : Cursor × List Arg) : Prop :=
  Advanced c q.1 ∧ kinds none q.1.rest <:+ d.kinds ∧ Matches (kinds none q.1.rest) q.2 ∧
    (CodesFit d.kinds d.ap ↔ CodesFit (kinds none q.1.rest) q.2)

/-- A letter that takes one argument, and prints something with it. -/
theorem convert_take {α : Type} (take : List Arg → Except Stop (α × List Arg)) (print : α → PrintM σ Unit)
    {kind : Kind} (h : Read c ap ks d) (hnul : (0 : UInt8) ∈ c.rest) (hch : d.ch ≠ 0)
    (hletter : letterKinds d.ch d.spec.lflag = [kind])
    (htaken : Matches (kind :: kinds none d.cursor.rest) d.ap →
      ∃ a ap', Taken take (kind :: kinds none d.cursor.rest) (kinds none d.cursor.rest) d.ap a ap')
    (hreturns : ∀ a s, Triple (OnlyTable (CodesFit d.kinds d.ap)) (print a) s fun _ _ => True) :
    Triple (OnlyTable (CodesFit d.kinds d.ap))
      (ofExcept (take d.ap) >>= fun r => print r.1 >>= fun _ => pure (d.cursor, r.2)) s fun q _ => Converted c d q := by
  have hmatch := h.matched
  have hkinds : d.kinds = kind :: kinds none d.cursor.rest := by
    rw [Directive.kinds_of_ne hch, hletter, List.singleton_append]
  rw [hkinds] at hmatch
  obtain ⟨a, ap', htaken⟩ := htaken hmatch
  rw [triple_bind, htaken.run, triple_ofExcept_ok]
  refine (hreturns a s).bind fun _ _ _ => ⟨h.advanced hnul hch, ?_, htaken.matched, ?_⟩
  · rw [hkinds]
    exact List.suffix_cons _ _
  · rw [hkinds]
    exact htaken.codes

/-- The conversion `%e`: it stops at the table when the code is out of its range. -/
theorem convert_error (h : Read c ap ks d) (hnul : (0 : UInt8) ∈ c.rest) (he : d.ch = ascii 'e')
    (hprint : ErrorsPrint printfmt) :
    Triple (OnlyTable (CodesFit d.kinds d.ap)) (convert putch printfmt d) s fun q _ => Converted c d q := by
  have hch : d.ch ≠ 0 := by
    rw [he]
    decide
  have hmatch := h.matched
  have hkinds : d.kinds = Kind.error :: kinds none d.cursor.rest := by
    rw [Directive.kinds_of_ne hch, he]
    rfl
  have hadvanced := h.advanced hnul hch
  unfold Converted
  unfold convert
  rw [if_neg (by rw [he]; decide), if_pos he]
  rw [hkinds] at hmatch
  obtain ⟨n, ap', hap⟩ : ∃ n ap', d.ap = Arg.int n :: ap' := by
    cases hcase : d.ap with
    | nil =>
        rw [hcase] at hmatch
        exact absurd hmatch id
    | cons a ap' =>
        rw [hcase] at hmatch
        cases a with
        | int n => exact ⟨n, ap', rfl⟩
        | long n => exact absurd hmatch.1 id
        | pointer a => exact absurd hmatch.1 id
        | string t => exact absurd hmatch.1 id
  rw [hkinds, hap]
  rw [hap] at hmatch
  have htake : vaInt (Arg.int n :: ap') = Except.ok (n, ap') := rfl
  rw [triple_bind, htake, triple_ofExcept_ok]
  change Triple _ (ofExcept (errorString (errorCode n)) >>= fun p => _) s _
  rw [triple_bind]
  rcases errorString_errorCode n with ⟨hne, p, htable⟩ | ⟨heq, htable⟩
  · rw [htable, triple_ofExcept_ok]
    have hcodes : CodesFit (Kind.error :: kinds none d.cursor.rest) (Arg.int n :: ap') ↔
        CodesFit (kinds none d.cursor.rest) ap' :=
      ⟨And.right, fun hrest => ⟨fun _ hint => hne (Arg.int.inj hint), hrest⟩⟩
    cases p with
    | none =>
        have hdone := (hprint s).1 (BitVec.ofInt 32 (errorCode n))
        exact (Triple.quiet hdone).bind fun _ _ _ => ⟨hadvanced, List.suffix_cons _ _, hmatch.2, hcodes⟩
    | some p =>
        have hdone := (hprint s).2 p
        exact (Triple.quiet hdone).bind fun _ _ _ => ⟨hadvanced, List.suffix_cons _ _, hmatch.2, hcodes⟩
  · rw [htable, triple_ofExcept_error]
    refine ⟨rfl, fun hfit => hfit.1 rfl ?_⟩
    rw [heq]

/-- A letter that is none: the cursor goes back, and the directive will be printed literally. -/
theorem convert_unknown (h : Read c ap ks d) (hnul : (0 : UInt8) ∈ c.rest) (hc : c.before = ascii '%' :: before)
    (hpercent : d.ch ≠ ascii '%') (hletter : letterKinds d.ch d.spec.lflag = []) :
    Triple (OnlyTable (CodesFit d.kinds d.ap))
      (do
        emit putch (ascii '%').toNat
        let c ← ofExcept (rewind d.cursor)
        pure (c, d.ap)) s fun q _ => Converted c d q := by
  rw [triple_bind, triple_emit, triple_bind, h.rewind hc, triple_ofExcept_ok]
  have hkinds : d.kinds = kinds none c.rest := by
    obtain ⟨flags, -, hr, hflags⟩ := h.flags
    unfold Directive.kinds
    rw [hletter, List.nil_append, hr, kinds_literal hflags, kinds_outside, if_neg hpercent]
  have hmatch := h.matched
  rw [hkinds] at hmatch
  unfold Converted
  rw [hkinds]
  exact ⟨⟨rfl, hnul, le_rfl⟩, List.suffix_refl _, hmatch, Iff.rfl⟩

theorem convert_spec (h : Read c ap ks d) (hnul : (0 : UInt8) ∈ c.rest) (hc : c.before = ascii '%' :: before)
    (hprint : d.ch = ascii 'e' → ErrorsPrint printfmt) :
    Triple (OnlyTable (CodesFit d.kinds d.ap)) (convert putch printfmt d) s fun q _ => Converted c d q := by
  by_cases he : d.ch = ascii 'e'
  · exact convert_error h hnul he (hprint he)
  have hne : ∀ {x : UInt8}, d.ch = x → x ≠ 0 → d.ch ≠ 0 := fun heq hx => heq ▸ hx
  unfold convert
  by_cases hc' : d.ch = ascii 'c'
  · rw [if_pos hc']
    refine convert_take vaInt (fun n => emit putch n.toInt) h hnul (hne hc' (by decide)) ?_ vaInt_spec fun n s =>
      (triple_emit _).2 trivial
    unfold letterKinds
    rw [if_pos hc']
  rw [if_neg hc', if_neg he]
  by_cases hs : d.ch = ascii 's'
  · rw [if_pos hs]
    refine convert_take vaString (fun p => putString putch d.spec (p.getD (text "(null)"))) h hnul
      (hne hs (by decide)) ?_ vaString_spec fun p s => putString_returns _ _
    unfold letterKinds
    rw [if_neg hc', if_neg he, if_pos hs]
  rw [if_neg hs]
  have hnumber : d.ch = ascii 'd' ∨ d.ch = ascii 'u' ∨ d.ch = ascii 'o' →
      letterKinds d.ch d.spec.lflag = [numberKind d.spec.lflag] := by
    intro hor
    unfold letterKinds
    rw [if_neg hc', if_neg he, if_neg hs, if_pos hor]
  by_cases hd : d.ch = ascii 'd'
  · rw [if_pos hd]
    refine convert_take (fun ap => getint ap d.spec.lflag) (fun n => if n.toInt < 0 then do
        emit putch (ascii '-').toNat
        printnum putch Base.decimal d.spec.padc (-n).toNat d.spec.width
      else printnum putch Base.decimal d.spec.padc n.toNat d.spec.width)
      h hnul (hne hd (by decide)) (hnumber (Or.inl hd)) getint_spec fun n s => ?_
    refine triple_ite (fun _ => ?_) fun _ => printnum_returns _ _ _ _
    rw [triple_bind, triple_emit]
    exact printnum_returns _ _ _ _
  rw [if_neg hd]
  by_cases hu : d.ch = ascii 'u'
  · rw [if_pos hu]
    exact convert_take (fun ap => getuint ap d.spec.lflag)
      (fun n => printnum putch Base.decimal d.spec.padc n.toNat d.spec.width) h hnul (hne hu (by decide))
      (hnumber (Or.inr (Or.inl hu))) getuint_spec fun n s => printnum_returns _ _ _ _
  rw [if_neg hu]
  by_cases ho : d.ch = ascii 'o'
  · rw [if_pos ho]
    exact convert_take (fun ap => getuint ap d.spec.lflag)
      (fun n => printnum putch Base.octal d.spec.padc n.toNat d.spec.width) h hnul (hne ho (by decide))
      (hnumber (Or.inr (Or.inr ho))) getuint_spec fun n s => printnum_returns _ _ _ _
  rw [if_neg ho]
  have hduo : ¬ (d.ch = ascii 'd' ∨ d.ch = ascii 'u' ∨ d.ch = ascii 'o') := by
    rintro (h | h | h)
    · exact hd h
    · exact hu h
    · exact ho h
  by_cases hp : d.ch = ascii 'p'
  · rw [if_pos hp, triple_bind, triple_emit, triple_bind, triple_emit]
    refine convert_take vaPointer (fun a => printnum putch Base.hex d.spec.padc a.toNat d.spec.width) h hnul
      (hne hp (by decide)) ?_ vaPointer_spec fun n s => printnum_returns _ _ _ _
    unfold letterKinds
    rw [if_neg hc', if_neg he, if_neg hs, if_neg hduo, if_pos hp]
  rw [if_neg hp]
  by_cases hx : d.ch = ascii 'x'
  · rw [if_pos hx]
    refine convert_take (fun ap => getuint ap d.spec.lflag)
      (fun n => printnum putch Base.hex d.spec.padc n.toNat d.spec.width) h hnul (hne hx (by decide)) ?_ getuint_spec
      fun n s => printnum_returns _ _ _ _
    unfold letterKinds
    rw [if_neg hc', if_neg he, if_neg hs, if_neg hduo, if_neg hp, if_pos hx]
  rw [if_neg hx]
  have hletter : letterKinds d.ch d.spec.lflag = [] := by
    unfold letterKinds
    rw [if_neg hc', if_neg he, if_neg hs, if_neg hduo, if_neg hp, if_neg hx]
  by_cases hpercent : d.ch = ascii '%'
  · rw [if_pos hpercent, triple_bind, triple_emit]
    have hch := hne hpercent (by decide)
    have hmatch := h.matched
    have hkinds : d.kinds = kinds none d.cursor.rest := by
      rw [Directive.kinds_of_ne hch, hletter, List.nil_append]
    rw [hkinds] at hmatch
    unfold Converted
    rw [hkinds]
    exact ⟨h.advanced hnul hch, List.suffix_refl _, hmatch, Iff.rfl⟩
  · rw [if_neg hpercent]
    exact convert_unknown h hnul hc hpercent hletter

/-! ### The loops -/

/-- What is printed literally ends behind a `%` or behind the NUL. -/
theorem literal_spec {E : Stop → Prop} (hnul : (0 : UInt8) ∈ rest) :
    Triple E (literal putch before rest) s fun r _ =>
      r.2.before.reverse ++ r.2.rest = before.reverse ++ rest ∧
        ((r.1 = true ∧ (∃ b, r.2.before = ascii '%' :: b) ∧ (0 : UInt8) ∈ r.2.rest ∧
            r.2.rest.count (ascii '%') < rest.count (ascii '%') ∧ kinds none rest = kinds (some 0) r.2.rest) ∨
          (r.1 = false ∧ (∃ b, r.2.before = 0 :: b) ∧ kinds none rest = [])) := by
  induction rest generalizing before s with
  | nil => exact absurd hnul List.not_mem_nil
  | cons ch rest ih =>
      unfold literal
      by_cases hpercent : ch = ascii '%'
      · rw [if_neg (not_not.2 hpercent)]
        have hne : (0 : UInt8) ≠ ch := by
          rw [hpercent]
          decide
        refine ⟨by simp, Or.inl ⟨rfl, ⟨before, by rw [hpercent]⟩, (List.mem_cons.1 hnul).resolve_left hne, ?_, ?_⟩⟩
        · rw [hpercent, List.count_cons_self]
          exact Nat.lt_succ_self _
        · rw [kinds_outside, if_pos hpercent]
      rw [if_pos hpercent]
      by_cases hzero : ch = 0
      · rw [if_pos hzero]
        refine ⟨by simp, Or.inr ⟨rfl, ⟨before, by rw [hzero]⟩, ?_⟩⟩
        rw [kinds_outside, if_neg hpercent, if_pos hzero]
      · rw [if_neg hzero, triple_bind, triple_emit]
        have hmem : (0 : UInt8) ∈ rest := (List.mem_cons.1 hnul).resolve_left fun h => hzero h.symm
        refine (@ih (ch :: before) _ hmem).mono fun r t hr => ?_
        have hcount : (ch :: rest).count (ascii '%') = rest.count (ascii '%') := List.count_cons_of_ne hpercent
        have hkinds : kinds none (ch :: rest) = kinds none rest := by
          rw [kinds_outside, if_neg hpercent, if_neg hzero]
        rw [hcount, hkinds]
        refine ⟨hr.1.trans ?_, hr.2⟩
        rw [List.reverse_cons, List.append_assoc, List.singleton_append]

/-- The format is read up to its NUL, unless an error code is out of the range of the table. -/
theorem formatLoop_spec (hnul : (0 : UInt8) ∈ c.rest) (hfuel : c.rest.count (ascii '%') < fuel)
    (hmatch : Matches (kinds none c.rest) ap) (hprint : Kind.error ∈ kinds none c.rest → ErrorsPrint printfmt) :
    Triple (OnlyTable (CodesFit (kinds none c.rest) ap)) (formatLoop putch printfmt fuel c ap) s fun c' _ =>
      CodesFit (kinds none c.rest) ap ∧ c'.before.reverse ++ c'.rest = c.before.reverse ++ c.rest ∧
        ∃ b, c'.before = 0 :: b := by
  induction fuel generalizing c ap s with
  | zero => exact absurd hfuel (Nat.not_lt_zero _)
  | succ fuel ih =>
      unfold formatLoop
      refine (literal_spec hnul).bind fun r t hr => ?_
      obtain ⟨hwhole, ⟨hfound, ⟨b, hb⟩, hnul', hcount, hkinds⟩ | ⟨hend, hb, hkinds⟩⟩ := hr
      · have hne : ¬ r.1 = false := by
          rw [hfound]
          decide
        rw [if_neg hne]
        rw [hkinds] at hmatch hprint ⊢
        have hstart : Matches (kinds (some Spec.start.lflag) r.2.rest) ap := hmatch
        obtain ⟨d, hrun, hread⟩ := reswitch_read hnul' (Nat.lt_succ_self _) hstart
        rw [triple_bind, hrun, triple_ofExcept_ok]
        have herror : d.ch = ascii 'e' → ErrorsPrint printfmt := by
          intro he
          refine hprint (hread.suffix.mem ?_)
          unfold Directive.kinds
          rw [he]
          exact List.mem_append_left _ List.mem_cons_self
        have hcodes : CodesFit d.kinds d.ap ↔ CodesFit (kinds (some 0) r.2.rest) ap := hread.codes
        have hconvert : Triple _ (convert putch printfmt d) t _ := convert_spec hread hnul' hb herror
        rw [hcodes] at hconvert
        refine hconvert.bind fun q u hq => ?_
        obtain ⟨hadvanced, hsuffix, hmatch', hcodes'⟩ := hq
        rw [hcodes] at hcodes'
        have hrest := @ih q.1 q.2 u hadvanced.nul (by have := hadvanced.count; omega) hmatch' fun hmem =>
          hprint (hread.suffix.mem (hsuffix.mem hmem))
        rw [← hcodes'] at hrest
        refine hrest.mono fun c' v hc' => ⟨hc'.1, ?_, hc'.2.2⟩
        rw [hc'.2.1, hadvanced.whole, hwhole]
      · rw [if_pos hend, triple_pure, hkinds]
        exact ⟨trivial, hwhole, hb⟩

end Format

/-! ## vprintfmt -/

section Whole

variable {σ τ : Type} {putch : Int → σ → σ} {putch' : Int → τ → τ} {R : σ → τ → Prop} {E : Stop → Prop}
  {fmt : List UInt8} {ap : List Arg} {s : σ} {depth : Nat}

/-- What is left of a format that was read up to its only NUL. -/
theorem consumed {c : Cursor} {b : List UInt8} (hnul : (0 : UInt8) ∉ fmt)
    (hwhole : c.before.reverse ++ c.rest = fmt ++ [0]) (hb : c.before = 0 :: b) : c = ⟨0 :: fmt.reverse, []⟩ := by
  rw [hb, List.reverse_cons, List.append_assoc, List.singleton_append] at hwhole
  obtain ⟨before, rest⟩ := c
  dsimp only at hb hwhole
  rcases List.append_eq_append_iff.1 hwhole with ⟨more, hfmt, hrest⟩ | ⟨more, hfmt, hrest⟩
  · cases more with
    | nil =>
        rw [List.append_nil] at hfmt
        rw [List.nil_append] at hrest
        rw [hb, hfmt, List.reverse_reverse, (List.cons.inj hrest).2]
    | cons x more =>
        have hx : (0 : UInt8) = x := (List.cons.inj hrest).1
        refine absurd ?_ hnul
        rw [hfmt, ← hx]
        exact List.mem_append_right _ List.mem_cons_self
  · cases more with
    | nil =>
        rw [List.append_nil] at hfmt
        rw [List.nil_append] at hrest
        rw [hb, ← hfmt, List.reverse_reverse, (List.cons.inj hrest).2]
    | cons x more =>
        have hlen := congrArg List.length hrest
        simp only [List.length_cons, List.length_append, List.length_nil] at hlen
        omega

/-- One level of `vprintfmt`, when what it prints for `%e` returns. -/
theorem vprintfmtLevel_spec (hnul : (0 : UInt8) ∉ fmt) (hmatch : Matches (kinds none (fmt ++ [0])) ap)
    (hprint : Kind.error ∈ kinds none (fmt ++ [0]) →
      ErrorsPrint fun fmt ap => vprintfmtLevel putch depth fmt ap >>= fun _ => pure ()) :
    Triple (OnlyTable (CodesFit (kinds none (fmt ++ [0])) ap)) (vprintfmtLevel putch (depth + 1) fmt ap) s fun c _ =>
      CodesFit (kinds none (fmt ++ [0])) ap ∧ c = ⟨0 :: fmt.reverse, []⟩ := by
  unfold vprintfmtLevel
  have hmem : (0 : UInt8) ∈ fmt ++ [0] := List.mem_append_right _ List.mem_cons_self
  have hfuel : (fmt ++ [0]).count (ascii '%') < fmt.length + 1 := by
    have hle : fmt.count (ascii '%') ≤ fmt.length := List.count_le_length
    have hzero : [(0 : UInt8)].count (ascii '%') = 0 := by decide
    rw [List.count_append, hzero]
    omega
  refine (formatLoop_spec hmem hfuel hmatch hprint).mono fun c t hc => ⟨hc.1, ?_⟩
  obtain ⟨-, hwhole, b, hb⟩ := hc
  exact consumed hnul hwhole hb

/-- The formats for `%e` have no `%e`, and they take what they are given. -/
theorem errors_print : ErrorsPrint fun fmt ap => vprintfmtLevel putch 1 fmt ap >>= fun _ => pure () := by
  have hnever : ∀ (fmt : List UInt8) (ap : List Arg) (s : σ), (0 : UInt8) ∉ fmt →
      Matches (kinds none (fmt ++ [0])) ap → CodesFit (kinds none (fmt ++ [0])) ap →
      Kind.error ∉ kinds none (fmt ++ [0]) →
      Triple Never (vprintfmtLevel putch 1 fmt ap >>= fun _ => pure ()) s fun _ _ => True := by
    intro fmt ap s hnul hmatch hcodes hnone
    have hlevel := @vprintfmtLevel_spec σ putch fmt ap s 0 hnul hmatch fun h => absurd h hnone
    exact (hlevel.mono_error fun e he => he.2 hcodes).bind fun _ _ _ => trivial
  refine fun s => ⟨fun n => ?_, fun p => ?_⟩
  · have hkinds : kinds none (text "error %d" ++ [0]) = [Kind.int] := by decide
    refine hnever _ _ s (by decide) ?_ ?_ ?_
    · rw [hkinds]
      exact ⟨trivial, trivial⟩
    · rw [hkinds]
      exact ⟨fun h => Kind.noConfusion h, trivial⟩
    · rw [hkinds]
      decide
  · have hkinds : kinds none (text "%s" ++ [0]) = [Kind.string] := by decide
    refine hnever _ _ s (by decide) ?_ ?_ ?_
    · rw [hkinds]
      exact ⟨trivial, trivial⟩
    · rw [hkinds]
      exact ⟨fun h => Kind.noConfusion h, trivial⟩
    · rw [hkinds]
      decide

/-- `vprintfmt` consumes a format whose arguments match it, or stops at the table of the error codes. -/
theorem vprintfmt_spec (hnul : (0 : UInt8) ∉ fmt) (hmatch : Matches (kinds none (fmt ++ [0])) ap) :
    Triple (OnlyTable (CodesFit (kinds none (fmt ++ [0])) ap)) (vprintfmt putch fmt ap) s fun c _ =>
      CodesFit (kinds none (fmt ++ [0])) ap ∧ c = ⟨0 :: fmt.reverse, []⟩ :=
  vprintfmtLevel_spec hnul hmatch fun _ => errors_print

end Whole

/-! ## Lockstep -/

section Alike

variable {σ τ : Type} {putch : Int → σ → σ} {putch' : Int → τ → τ} {R : σ → τ → Prop}

/-- The two operations that take the characters keep the relation. -/
def Keeps (putch : Int → σ → σ) (putch' : Int → τ → τ) (R : σ → τ → Prop) : Prop :=
  ∀ ch s t, R s t → R (putch ch s) (putch' ch t)

theorem Keeps.emit (h : Keeps putch putch' R) (ch : Int) : Lockstep R (emit putch ch) (emit putch' ch) :=
  Lockstep.of_modify (h ch)

theorem Keeps.ofExcept {α : Type} (x : Except Stop α) :
    Lockstep R (ofExcept x : PrintM σ α) (ofExcept x : PrintM τ α) := by
  cases x with
  | error e => exact Lockstep.of_throw e
  | ok a => exact Lockstep.of_pure a

theorem Keeps.padding (h : Keeps putch putch' R) (ch : UInt8) (n : Nat) :
    Lockstep R (padding putch ch n) (padding putch' ch n) := by
  induction n with
  | zero => exact Lockstep.of_pure ()
  | succ n ih => exact (h.emit ch.toNat).bind fun _ => ih

theorem Keeps.printnum (h : Keeps putch putch' R) (base : Base) (padc : UInt8) (num : Nat) (width : Int) :
    Lockstep R (printnum putch base padc num width) (printnum putch' base padc num width) := by
  induction num using Nat.strong_induction_on generalizing width with
  | _ num ih =>
      unfold Printfmt.printnum
      by_cases hbase : base.toNat ≤ num
      · rw [dif_pos hbase, dif_pos hbase]
        exact (ih _ (div_base_lt hbase) _).bind fun _ => h.emit _
      · rw [dif_neg hbase, dif_neg hbase]
        exact (h.padding padc _).bind fun _ => h.emit _

theorem Keeps.charLoop (h : Keeps putch putch' R) (altflag : Bool) (p : List UInt8) (width precision : Int) :
    Lockstep R (charLoop putch altflag p width precision) (charLoop putch' altflag p width precision) := by
  induction p generalizing width precision with
  | nil => exact Lockstep.of_pure width
  | cons ch p ih =>
      unfold Printfmt.charLoop
      refine Lockstep.ite (fun _ => ?_) fun _ => Lockstep.of_pure width
      exact (Lockstep.ite (fun _ => h.emit _) fun _ => h.emit _).bind fun _ => ih _ _

theorem Keeps.putString (h : Keeps putch putch' R) (spec : Spec) (p : List UInt8) :
    Lockstep R (putString putch spec p) (putString putch' spec p) := by
  refine (Lockstep.ite (fun _ => h.padding _ _) fun _ => Lockstep.of_pure ()).bind fun _ => ?_
  exact (h.charLoop _ _ _ _).bind fun _ => h.padding _ _

variable {printfmt : List UInt8 → List Arg → PrintM σ Unit} {printfmt' : List UInt8 → List Arg → PrintM τ Unit}

/-- A letter does the same with both, when what it prints for `%e` does. -/
theorem Keeps.convert (h : Keeps putch putch' R) (hprint : ∀ fmt ap, Lockstep R (printfmt fmt ap) (printfmt' fmt ap))
    (d : Directive) : Lockstep R (convert putch printfmt d) (convert putch' printfmt' d) := by
  unfold Printfmt.convert
  have hdone : ∀ (c : Cursor) (ap : List Arg), Lockstep R (pure (c, ap) : PrintM σ _) (pure (c, ap)) :=
    fun c ap => Lockstep.of_pure _
  -- one case for each letter, in the order of the `switch`
  refine Lockstep.ite (fun _ => ?_) fun _ => Lockstep.ite (fun _ => ?_) fun _ => Lockstep.ite (fun _ => ?_) fun _ =>
    Lockstep.ite (fun _ => ?_) fun _ => Lockstep.ite (fun _ => ?_) fun _ => Lockstep.ite (fun _ => ?_) fun _ =>
    Lockstep.ite (fun _ => ?_) fun _ => Lockstep.ite (fun _ => ?_) fun _ => Lockstep.ite (fun _ => ?_) fun _ => ?_
  · exact (Keeps.ofExcept _).bind fun _ => (h.emit _).bind fun _ => hdone _ _
  · refine (Keeps.ofExcept _).bind fun r => (Keeps.ofExcept _).bind fun p => ?_
    cases p with
    | none => exact (hprint _ _).bind fun _ => hdone _ _
    | some p => exact (hprint _ _).bind fun _ => hdone _ _
  · exact (Keeps.ofExcept _).bind fun _ => (h.putString _ _).bind fun _ => hdone _ _
  · refine (Keeps.ofExcept _).bind fun r => ?_
    refine Lockstep.bind (Lockstep.ite (fun _ => ?_) fun _ => h.printnum _ _ _ _) fun _ => hdone _ _
    exact (h.emit _).bind fun _ => h.printnum _ _ _ _
  · exact (Keeps.ofExcept _).bind fun _ => (h.printnum _ _ _ _).bind fun _ => hdone _ _
  · exact (Keeps.ofExcept _).bind fun _ => (h.printnum _ _ _ _).bind fun _ => hdone _ _
  · refine (h.emit _).bind fun _ => (h.emit _).bind fun _ => ?_
    exact (Keeps.ofExcept _).bind fun _ => (h.printnum _ _ _ _).bind fun _ => hdone _ _
  · exact (Keeps.ofExcept _).bind fun _ => (h.printnum _ _ _ _).bind fun _ => hdone _ _
  · exact (h.emit _).bind fun _ => hdone _ _
  · exact (h.emit _).bind fun _ => (Keeps.ofExcept _).bind fun _ => hdone _ _

theorem Keeps.literal (h : Keeps putch putch' R) (before rest : List UInt8) :
    Lockstep R (literal putch before rest) (literal putch' before rest) := by
  induction rest generalizing before with
  | nil => exact Lockstep.of_throw Stop.bounds
  | cons ch rest ih =>
      unfold Printfmt.literal
      refine Lockstep.ite (fun _ => ?_) fun _ => Lockstep.of_pure _
      exact Lockstep.ite (fun _ => Lockstep.of_pure _) fun _ => (h.emit _).bind fun _ => ih _

theorem Keeps.formatLoop (h : Keeps putch putch' R)
    (hprint : ∀ fmt ap, Lockstep R (printfmt fmt ap) (printfmt' fmt ap)) (fuel : Nat) (c : Cursor) (ap : List Arg) :
    Lockstep R (formatLoop putch printfmt fuel c ap) (formatLoop putch' printfmt' fuel c ap) := by
  induction fuel generalizing c ap with
  | zero => exact Lockstep.of_throw Stop.fuel
  | succ fuel ih =>
      refine (h.literal _ _).bind fun r => Lockstep.ite (fun _ => Lockstep.of_pure _) fun _ => ?_
      exact (Keeps.ofExcept _).bind fun d => (h.convert hprint d).bind fun q => ih _ _

theorem Keeps.vprintfmtLevel (h : Keeps putch putch' R) (depth : Nat) (fmt : List UInt8) (ap : List Arg) :
    Lockstep R (vprintfmtLevel putch depth fmt ap) (vprintfmtLevel putch' depth fmt ap) := by
  induction depth generalizing fmt ap with
  | zero => exact Lockstep.of_throw Stop.fuel
  | succ depth ih => exact h.formatLoop (fun fmt ap => (ih fmt ap).bind fun _ => Lockstep.of_pure ()) _ _ _

end Alike

/-! ## vsnprintf -/

section Bounded

variable {mem : Nat → UInt8} {str room size : Nat} {out : List Int} {b : Sprintbuf} {fmt : List UInt8} {ap : List Arg}

/-- The format prints `out`, with every operation that takes the characters, and it is read up to `c`. -/
def Prints (fmt : List UInt8) (ap : List Arg) (c : Cursor) (out : List Int) : Prop :=
  ∀ (σ : Type) (putch : Int → σ → σ) (s : σ),
    vprintfmt putch fmt ap s = Except.ok (c, out.foldl (fun s ch => putch ch s) s)

/-- The string `bytes` was written at `str`, with a NUL behind it, and nothing else. -/
structure Written (mem : Nat → UInt8) (str : Nat) (bytes : List UInt8) (mem' : Nat → UInt8) : Prop where
  chars : Chars mem' str bytes
  nul : mem' (str + bytes.length) = 0
  rest : ∀ x, x < str ∨ str + bytes.length < x → mem' x = mem x

/-- A buffer with `room` for characters, after `out` was printed into it. -/
structure Filled (mem : Nat → UInt8) (str room : Nat) (out : List Int) (b : Sprintbuf) : Prop where
  buf : b.buf = str + min out.length room
  ebuf : b.ebuf = str + room
  cnt : b.cnt = wrap32 out.length
  chars : Chars b.mem str ((out.take room).map UInt8.ofInt)
  rest : ∀ x, x < str ∨ b.buf ≤ x → b.mem x = mem x

/-- The operation that collects the characters. -/
def collect (ch : Int) (out : List Int) : List Int := out ++ [ch]

/-- What is collected and what is written stay the same. -/
theorem filled_keeps : Keeps collect sprintputch (Filled mem str room) := by
  intro ch out b h
  unfold collect
  have hcnt : wrap32 (b.cnt + 1) = wrap32 (out ++ [ch]).length := by
    have hmod : wrap32 (wrap32 out.length + 1) = wrap32 (out.length + 1) := Int.bmod_add_bmod
    rw [h.cnt, hmod, List.length_append, List.length_singleton, Nat.cast_add, Nat.cast_one]
  unfold sprintputch
  by_cases hroom : out.length < room
  · have hbuf : b.buf = str + out.length := by
      rw [h.buf, Nat.min_eq_left hroom.le]
    have htake : (out ++ [ch]).take room = out.take room ++ [ch] := by
      rw [List.take_of_length_le (by rw [List.length_append, List.length_singleton]; exact hroom),
        List.take_of_length_le hroom.le]
    have hlen : ((out.take room).map UInt8.ofInt).length = out.length := by
      rw [List.length_map, List.length_take, Nat.min_eq_right hroom.le]
    dsimp only
    rw [if_pos (by rw [h.ebuf, hbuf]; exact Nat.add_lt_add_left hroom str)]
    refine ⟨?_, h.ebuf, hcnt, ?_, fun x hx => ?_⟩
    · dsimp only
      rw [hbuf, List.length_append, List.length_singleton, Nat.min_eq_left hroom, Nat.add_assoc]
    · rw [htake, List.map_append, List.map_singleton, chars_append, hlen]
      refine ⟨h.chars.congr fun x _ hx => Function.update_of_ne ?_ _ _, ?_, trivial⟩
      · rw [hlen] at hx
        rw [hbuf]
        exact hx.ne
      · rw [← hbuf]
        exact Function.update_self _ _ _
    · have hne : x ≠ b.buf := by
        rcases hx with hx | hx
        · exact (hx.trans_le (hbuf ▸ Nat.le_add_right _ _)).ne
        · exact (Nat.lt_of_succ_le hx).ne'
      dsimp only
      rw [Function.update_of_ne hne]
      exact h.rest x (hx.imp id fun hx => (Nat.le_succ _).trans hx)
  · have hfull : room ≤ out.length := Nat.not_lt.1 hroom
    have hbuf : b.buf = str + room := by
      rw [h.buf, Nat.min_eq_right hfull]
    dsimp only
    rw [if_neg (by rw [h.ebuf, hbuf]; exact lt_irrefl _)]
    refine ⟨?_, h.ebuf, hcnt, ?_, h.rest⟩
    · dsimp only
      rw [hbuf, Nat.min_eq_right (by rw [List.length_append]; exact hfull.trans (Nat.le_add_right _ _))]
    · rw [List.take_append_of_le_length hfull]
      exact h.chars

/-- The characters that are collected are those that any operation gets. -/
theorem collected_keeps {σ : Type} (putch : Int → σ → σ) (s : σ) :
    Keeps collect putch fun out t => t = out.foldl (fun s ch => putch ch s) s := by
  intro ch out t h
  unfold collect
  rw [h, List.foldl_append]
  rfl

theorem filled_written (h : Filled mem str room out b) :
    Written mem str ((out.take room).map UInt8.ofInt) (Function.update b.mem b.buf 0) := by
  have hlen : str + ((out.take room).map UInt8.ofInt).length = b.buf := by
    rw [List.length_map, List.length_take, h.buf, Nat.min_comm]
  refine ⟨h.chars.congr fun x _ hx => Function.update_of_ne ?_ _ _, ?_, fun x hx => ?_⟩
  · exact (hlen ▸ hx).ne
  · rw [hlen]
    exact Function.update_self _ _ _
  · rw [hlen] at hx
    have hne : x ≠ b.buf := by
      rcases hx with hx | hx
      · exact (hx.trans_le (h.buf ▸ Nat.le_add_right _ _)).ne
      · exact hx.ne'
    rw [Function.update_of_ne hne]
    exact h.rest x (hx.imp id Nat.le_of_lt)

/-- Two runs of one format, from their outcome where the characters are collected. -/
theorem prints_of_run {c : Cursor} (h : vprintfmt collect fmt ap [] = Except.ok (c, out)) : Prints fmt ap c out := by
  intro σ putch s
  have hlock := (collected_keeps putch s).vprintfmtLevel 2 fmt ap [] s rfl
  unfold vprintfmt at h ⊢
  rw [h] at hlock
  generalize hrun : vprintfmtLevel putch 2 fmt ap s = x
  rw [hrun] at hlock
  cases hlock with
  | ok heq => rw [heq]

/-- Formatting into a buffer writes what fits of what the format prints, and returns how much that is. It does so
for arguments that match the format, unless an error code among them is the most negative `int`. -/
theorem vsnprintf_truncates (mem : Nat → UInt8) (str size : Nat) (fmt : List UInt8) (ap : List Arg) (hstr : 0 < str)
    (hsize : 0 < size) (hend : str + size ≤ 2 ^ 64) (hnul : (0 : UInt8) ∉ fmt)
    (hmatch : Matches (kinds none (fmt ++ [0])) ap) :
    (∃ out mem', Prints fmt ap ⟨0 :: fmt.reverse, []⟩ out ∧ vsnprintf mem str size fmt ap = Except.ok (wrap32 out.length, mem') ∧
        Written mem str ((out.take (size - 1)).map UInt8.ofInt) mem') ↔
      CodesFit (kinds none (fmt ++ [0])) ap := by
  obtain ⟨room, rfl⟩ : ∃ room, size = room + 1 := Nat.exists_eq_add_one.2 hsize
  have hebuf : (str + (room + 1) + (2 ^ 64 - 1)) % 2 ^ 64 = str + room := by omega
  constructor
  · rintro ⟨out, -, hprints, -, -⟩
    exact ((vprintfmt_spec hnul hmatch).of_ok (hprints Unit (fun _ s => s) ())).1
  · intro hcodes
    have hspec : Triple _ (vprintfmt collect fmt ap) [] _ := vprintfmt_spec hnul hmatch
    have hnever : Triple Never _ _ _ := hspec.mono_error fun e he => he.2 hcodes
    obtain ⟨c, out, hrun⟩ := Triple.returns hnever
    have hc := (hspec.of_ok hrun).2
    rw [hc] at hrun
    have hprints := prints_of_run hrun
    have hstart : Filled mem str room [] { buf := str, ebuf := str + room, cnt := 0, mem := mem } :=
      ⟨by rw [List.length_nil, Nat.zero_min, Nat.add_zero], rfl, rfl, by rw [List.take_nil]; trivial, fun _ _ => rfl⟩
    have hlock := filled_keeps.vprintfmtLevel 2 fmt ap [] _ hstart
    unfold vprintfmt at hrun
    rw [hrun] at hlock
    generalize hbounded : vprintfmtLevel sprintputch 2 fmt ap
      { buf := str, ebuf := str + room, cnt := 0, mem := mem } = x at hlock
    cases hlock with
    | @ok _ _ b hfilled =>
        refine ⟨out, Function.update b.mem b.buf 0, hprints, ?_, filled_written hfilled⟩
        unfold vsnprintf vprintfmt
        dsimp only
        rw [hebuf, if_neg (by omega), hbounded, ← hfilled.cnt]
        rfl

/-- The format `%d-%s` in a buffer of four bytes. -/
theorem vsnprintf_truncates_four : ∃ out mem',
    Prints (text "%d-%s") [Arg.int 2048, Arg.string (some (text "ab"))] ⟨0 :: (text "%d-%s").reverse, []⟩ out ∧
    vsnprintf (fun _ => 7) 4096 4 (text "%d-%s") [Arg.int 2048, Arg.string (some (text "ab"))] =
      Except.ok (wrap32 out.length, mem') ∧
    Written (fun _ => 7) 4096 ((out.take 3).map UInt8.ofInt) mem' := by
  have hkinds : kinds none (text "%d-%s" ++ [0]) = [Kind.int, Kind.string] := by decide
  refine (vsnprintf_truncates (fun _ => 7) 4096 4 (text "%d-%s") _ (by decide) (by decide) (by decide) (by decide) ?_).2 ?_
  · rw [hkinds]
    exact ⟨trivial, trivial, trivial⟩
  · rw [hkinds]
    exact ⟨fun h => Kind.noConfusion h, fun h => Kind.noConfusion h, trivial⟩

end Bounded

end Printfmt
end TriOS
