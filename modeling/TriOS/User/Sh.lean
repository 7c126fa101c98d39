import TriOS.Libs.String

/-!
# sh.c — the command lines of the shell

`gettoken` cuts a command line in place: the NUL behind a token is written by the next call. `runcmd` hands
words to `open` and `exec` as it goes. It is written here over any source of tokens; the command line in
memory is one, and the list of the tokens with their texts is another.
-/

namespace TriOS
namespace Sh

open Outcome CString

/-- `WHITESPACE` -/
def whitespace : List UInt8 := [32, 9, 13, 10]

/-- `SYMBOLS` -/
def symbols : List UInt8 := [60, 124, 62, 38, 59]

/-- `EXEC_MAX_ARG_NUM` -/
def execMaxArgNum : Nat := 32

/-- `sizeof(argv0)` -/
def bufsize : Nat := 4096

/-- `E_NOENT` -/
def eNoent : Int := 16

/-! ## gettoken -/

/-- The loop of `gettoken` over a word; a quotation mark becomes a blank and turns `flag` round. -/
def scanWord : Nat → (Nat → UInt8) → Nat → Bool → Outcome ((Nat → UInt8) × Nat)
  | 0, _, _, _ => fuel
  | bound + 1, m, s, flag =>
      if m s ≠ 0 ∧ (flag = true ∨ strchr (whitespace ++ symbols) (m s) = false) then
        if m s = 34 then scanWord bound (Function.update m s 32) (s + 1) (!flag)
        else scanWord bound m (s + 1) flag
      else done (m, s)

/-- What `gettoken` has come to: the token, `0` at the end and `'w'` for a word; the memory; `*p1`; and
`*p2`, which is set unless the token is `0`. -/
structure Cut where
  token : UInt8
  mem : Nat → UInt8
  p1 : Option Nat
  p2 : Nat

/-- `*p1 = (*s != '\0' ? s : NULL)` -/
def restAt (m : Nat → UInt8) (s : Nat) : Option Nat :=
  if m s ≠ 0 then some s else none

/-- `gettoken` -/
def gettoken (bound : Nat) (m : Nat → UInt8) (p1 : Option Nat) (p2 : Nat) : Outcome Cut :=
  match p1 with
  | none => done { token := 0, mem := m, p1 := none, p2 := p2 }
  | some s => do
      let (m, s) ← clearWhile (strchr whitespace) bound m s
      if m s = 0 then pure { token := 0, mem := m, p1 := p1, p2 := p2 }
      else if strchr symbols (m s) then
        let m' := Function.update m s 0
        pure { token := m s, mem := m', p1 := restAt m' (s + 1), p2 := s }
      else do
        let (m, stop) ← scanWord bound m s false
        pure { token := 119, mem := m, p1 := restAt m stop, p2 := s }

/-! ## runcmd -/

/-- What `gettoken` gives to `runcmd`. -/
inductive Token (W : Type) where
  | stop
  | word (t : W)
  | symbol (c : UInt8)

/-- A source of tokens with states `S` and words `W`: the next token, and the text that a word has in a
state. -/
structure Source (S W : Type) where
  gettoken : S → Outcome (Token W × S)
  text : S → W → List UInt8

/-- The calls of the shell to the system. The copy into `shcwd` counts as one. -/
inductive Call where
  | close (fd : Int)
  | open_ (filename : List UInt8) (flags : Nat)
  | dup2 (fd1 fd2 : Int)
  | fork
  | waitpid (pid : Int)
  | setShcwd (path : List UInt8)
  | exec (argv : List (List UInt8))
  deriving DecidableEq, Repr

/-- How `runcmd` ends: its return value and the calls made. -/
structure Ending where
  ret : Int
  calls : List Call
  deriving DecidableEq, Repr

/-- `O_RDONLY` -/
def oRdonly : Nat := 0

/-- `O_RDWR | O_TRUNC | O_CREAT` -/
def oOutput : Nat := 0x2 ||| 0x10 ||| 0x4

/-- A call; the system answers according to all calls so far. -/
def sysCall (sys : List Call → Int) (calls : List Call) (c : Call) : Int × List Call :=
  (sys (calls ++ [c]), calls ++ [c])

/-- `reopen` -/
def reopen (sys : List Call → Int) (calls : List Call) (fd2 : Int) (filename : List UInt8) (flags : Nat) :
    Int × List Call :=
  let calls := (sysCall sys calls (.close fd2)).2
  let (ret, calls) := sysCall sys calls (.open_ filename flags)
  if ret ≥ 0 ∧ ret ≠ fd2 then
    let calls := (sysCall sys calls (.close fd2)).2
    let (ret', calls) := sysCall sys calls (.dup2 ret fd2)
    let calls := (sysCall sys calls (.close ret)).2
    (if ret' < 0 then ret' else 0, calls)
  else (if ret < 0 then ret else 0, calls)

/-- `testfile` -/
def testfile (sys : List Call → Int) (calls : List Call) (name : List UInt8) : Int × List Call :=
  let (ret, calls) := sysCall sys calls (.open_ name oRdonly)
  if ret < 0 then (ret, calls)
  else (0, (sysCall sys calls (.close ret)).2)

/-- `runcmd` from `runit` on. -/
def runit (sys : List Call → Int) (calls : List Call) (argv : List (List UInt8)) : Ending :=
  match argv with
  | [] => ⟨0, calls⟩
  | argv0 :: args =>
      if argv0 = [99, 100] then
        match args with
        | [path] => ⟨0, (sysCall sys calls (.setShcwd path)).2⟩
        | _ => ⟨-1, calls⟩
      else
        let (ret, calls) := testfile sys calls argv0
        if ret = 0 then
          let (ret, calls) := sysCall sys calls (.exec (argv0 :: args))
          ⟨ret, calls⟩
        else if ret ≠ -eNoent then ⟨ret, calls⟩
        else
          -- snprintf(argv0, sizeof(argv0), "/%s", argv[0])
          let (ret, calls) := sysCall sys calls (.exec ((47 :: argv0).take (bufsize - 1) :: args))
          ⟨ret, calls⟩

/-- What one turn of the loop of `runcmd` leads to: `runcmd` returns, or the loop goes on, with the words in
`argv`. -/
inductive Next (S W : Type) where
  | returns (e : Ending)
  | goes (s : S) (argv : List W) (calls : List Call)

section Runcmd

variable {S W : Type} (src : Source S W) (sys : List Call → Int)

/-- `case '<'` and `case '>'` -/
def redirect (fd2 : Int) (flags : Nat) (s : S) (argv : List W) (calls : List Call) : Outcome (Next S W) := do
  let (token, s) ← src.gettoken s
  match token with
  | .word t =>
      let (ret, calls) := reopen sys calls fd2 (src.text s t) flags
      if ret ≠ 0 then pure (.returns ⟨ret, calls⟩) else pure (.goes s argv calls)
  | _ => pure (.returns ⟨-1, calls⟩)

/-- `case '|'`. The array `p` is not set before it is used; `p0` and `p1` are what it holds. -/
def pipe (p0 p1 : Int) (s : S) (argv : List W) (calls : List Call) : Next S W :=
  let (ret, calls) := sysCall sys calls .fork
  if ret = 0 then
    let calls := (sysCall sys calls (.close 0)).2
    let (ret, calls) := sysCall sys calls (.dup2 p0 0)
    if ret < 0 then .returns ⟨ret, calls⟩
    else
      let calls := (sysCall sys calls (.close p0)).2
      let calls := (sysCall sys calls (.close p1)).2
      .goes s [] calls
  else if ret < 0 then .returns ⟨ret, calls⟩
  else
    let calls := (sysCall sys calls (.close 1)).2
    let (ret, calls) := sysCall sys calls (.dup2 p1 1)
    if ret < 0 then .returns ⟨ret, calls⟩
    else
      let calls := (sysCall sys calls (.close p0)).2
      let calls := (sysCall sys calls (.close p1)).2
      .returns (runit sys calls (argv.map (src.text s)))

/-- `case ';'` -/
def sequence (s : S) (argv : List W) (calls : List Call) : Next S W :=
  let (ret, calls) := sysCall sys calls .fork
  if ret = 0 then .returns (runit sys calls (argv.map (src.text s)))
  else if ret < 0 then .returns ⟨ret, calls⟩
  else .goes s [] (sysCall sys calls (.waitpid ret)).2

/-- One turn of the `while` loop of `runcmd` -/
def runToken (p0 p1 : Int) (s : S) (argv : List W) (calls : List Call) : Outcome (Next S W) := do
  let (token, s) ← src.gettoken s
  match token with
  | .stop => pure (.returns (runit sys calls (argv.map (src.text s))))
  | .word t =>
      if argv.length = execMaxArgNum then pure (.returns ⟨-1, calls⟩)
      else pure (.goes s (argv ++ [t]) calls)
  | .symbol c =>
      if c = 60 then redirect src sys 0 oRdonly s argv calls
      else if c = 62 then redirect src sys 1 oOutput s argv calls
      else if c = 124 then pure (pipe src sys p0 p1 s argv calls)
      else if c = 59 then pure (sequence src sys s argv calls)
      else pure (.returns ⟨-1, calls⟩)

/-- The `while` loop of `runcmd` -/
def runLoop (p0 p1 : Int) : Nat → S → List W → List Call → Outcome Ending
  | 0, _, _, _ => fuel
  | bound + 1, s, argv, calls => do
      match ← runToken src sys p0 p1 s argv calls with
      | .returns e => pure e
      | .goes s argv calls => runLoop p0 p1 bound s argv calls

end Runcmd

/-- The string at `p`, read for at most `n` bytes. -/
def stringAt (m : Nat → UInt8) : Nat → Nat → List UInt8
  | 0, _ => []
  | n + 1, p => if m p = 0 then [] else m p :: stringAt m n (p + 1)

/-- The variables that `runcmd` gives to `gettoken`: the memory, `cmd` and `t`. -/
structure Scan where
  mem : Nat → UInt8
  cmd : Option Nat
  t : Nat

/-- The command line in memory as a source of tokens. -/
def commandLine (bound : Nat) : Source Scan Nat where
  gettoken s := do
    let c ← gettoken bound s.mem s.cmd s.t
    let s' := { mem := c.mem, cmd := c.p1, t := c.p2 }
    if c.token = 0 then pure (.stop, s')
    else if c.token = 119 then pure (.word c.p2, s')
    else pure (.symbol c.token, s')
  text s t := stringAt s.mem bound t

/-- `runcmd` on the line at `cmd`. -/
def runcmd (sys : List Call → Int) (p0 p1 : Int) (bound : Nat) (m : Nat → UInt8) (cmd : Nat) : Outcome Ending :=
  runLoop (commandLine bound) sys p0 p1 bound { mem := m, cmd := some cmd, t := 0 } [] []

/-! ## The tokens of a line -/

/-- A character that ends a word outside quotation marks. -/
def isSep (c : UInt8) : Bool := strchr (whitespace ++ symbols) c

/-- A word: characters that are not separators, or anything between quotation marks, which stand for
blanks. -/
def lexWord : Bool → List UInt8 → List UInt8 × List UInt8
  | _, [] => ([], [])
  | flag, c :: cs =>
      if flag = true ∨ isSep c = false then
        if c = 34 then
          let (w, rest) := lexWord (!flag) cs
          (32 :: w, rest)
        else
          let (w, rest) := lexWord flag cs
          (c :: w, rest)
      else ([], c :: cs)

/-- The first token of a line and the rest of the line. -/
def nextToken (line : List UInt8) : Token (List UInt8) × List UInt8 :=
  match line.dropWhile (strchr whitespace) with
  | [] => (.stop, [])
  | c :: cs =>
      if strchr symbols c then (.symbol c, cs)
      else
        let (w, rest) := lexWord false (c :: cs)
        (.word w, rest)

/-- The tokens of a line, each word with its own text. -/
def tokenList : Source (List UInt8) (List UInt8) where
  gettoken line := done (nextToken line)
  text _ w := w

/-- `runcmd` on the tokens of the line. -/
def runTokens (sys : List Call → Int) (p0 p1 : Int) (bound : Nat) (line : List UInt8) : Outcome Ending :=
  runLoop tokenList sys p0 p1 bound line [] []

/-- If the line starts with a redirection, then the line ends with its file name: no blank follows it. -/
def RedirectEnds (line : List UInt8) : Prop :=
  ∀ c rest w rest', nextToken line = (.symbol c, rest) → c = 60 ∨ c = 62 → nextToken rest = (.word w, rest') →
    rest' = []

/-- Every redirection that the run over the tokens reaches has its file name at the end of the line. -/
def RedirectsLast (sys : List Call → Int) (p0 p1 : Int) :
    Nat → List UInt8 → List (List UInt8) → List Call → Prop
  | 0, _, _, _ => True
  | bound + 1, line, argv, calls =>
      RedirectEnds line ∧
        ∀ line' argv' calls', runToken tokenList sys p0 p1 line argv calls = done (.goes line' argv' calls') →
          RedirectsLast sys p0 p1 bound line' argv' calls'

variable {m m' : Nat → UInt8} {cmd cmd' : Option Nat} {p q t bound n : Nat} {c : UInt8} {flag : Bool}
  {line rest w : List UInt8}

/-- What is neither white space nor a symbol is no separator. -/
theorem isSep_of_not (hblank : strchr whitespace c = false) (hc : ¬ strchr symbols c = true) : isSep c = false := by
  simp only [isSep, strchr, List.contains_eq_mem, List.mem_append, decide_eq_true_eq,
    decide_eq_false_iff_not] at hblank hc ⊢
  exact not_or.2 ⟨hblank, hc⟩

/-- A word ends at the end of the line or in front of a separator. -/
theorem lexWord_rest (line : List UInt8) (flag : Bool) : ∀ c ∈ (lexWord flag line).2.head?, isSep c = true := by
  induction line generalizing flag with
  | nil => simp [lexWord]
  | cons d ds ih =>
      rw [lexWord]
      by_cases hgo : flag = true ∨ isSep d = false
      · rw [if_pos hgo]
        by_cases hquote : d = 34
        · rw [if_pos hquote]
          exact ih _
        · rw [if_neg hquote]
          exact ih _
      · rw [if_neg hgo]
        intro c hc
        simp only [List.head?_cons, Option.mem_def, Option.some.injEq] at hc
        rw [← hc]
        simpa using (not_or.1 hgo).2

/-- The characters of a word and the rest make up the line. -/
theorem lexWord_length (line : List UInt8) (flag : Bool) : (lexWord flag line).1.length + (lexWord flag line).2.length = line.length := by
  induction line generalizing flag with
  | nil => rfl
  | cons d ds ih =>
      rw [lexWord]
      by_cases hgo : flag = true ∨ isSep d = false
      · rw [if_pos hgo]
        by_cases hquote : d = 34
        · rw [if_pos hquote]
          have h := ih (!flag)
          simp only [List.length_cons]
          omega
        · rw [if_neg hquote]
          have h := ih flag
          simp only [List.length_cons]
          omega
      · rw [if_neg hgo]
        simp

/-- A character that is no separator is part of the word. -/
theorem lexWord_pos (hc : isSep c = false) (cs : List UInt8) : 0 < (lexWord false (c :: cs)).1.length := by
  rw [lexWord, if_pos (Or.inr hc)]
  split
  · exact Nat.succ_pos _
  · exact Nat.succ_pos _

theorem nextToken_nil : nextToken [] = (.stop, []) := rfl

/-- Every token takes something from the line. -/
theorem nextToken_length (line : List UInt8) : (∃ rest, nextToken line = (.stop, rest)) ∨ (nextToken line).2.length < line.length := by
  have hle : (line.dropWhile (strchr whitespace)).length ≤ line.length := (List.dropWhile_suffix _).length_le
  unfold nextToken
  cases hrest : line.dropWhile (strchr whitespace) with
  | nil => exact Or.inl ⟨[], rfl⟩
  | cons c cs =>
      rw [hrest, List.length_cons] at hle
      right
      by_cases hc : strchr symbols c = true
      · simp only [hc, ↓reduceIte]
        omega
      · have hsep := isSep_of_not (dropWhile_head hrest) hc
        have hpos := lexWord_pos hsep cs
        have hlen := lexWord_length (c :: cs) false
        simp only [hc, Bool.false_eq_true, ↓reduceIte]
        rw [List.length_cons] at hlen
        omega

/-! ## The line in memory -/

/-- What is left of the line. -/
def Rest (m : Nat → UInt8) (cmd : Option Nat) (line : List UInt8) : Prop :=
  match cmd with
  | none => line = []
  | some p => Text m p line

/-- A word that was cut: its characters are in place, and either the NUL behind it is written, and lies in front
of the rest of the line, or the rest of the line starts there, with a separator. -/
def Held (m : Nat → UInt8) (cmd : Option Nat) (q : Nat) (w : List UInt8) : Prop :=
  (Chars m q w ∧ ∀ c ∈ w, c ≠ 0) ∧
    ((m (q + w.length) = 0 ∧ ∀ p, cmd = some p → q + w.length < p) ∨
      (cmd = some (q + w.length) ∧ isSep (m (q + w.length)) = true))

/-- A step over the line: nothing in front of it changes, a separator at its start is overwritten, and what is
left starts behind it. -/
structure Advance (m : Nat → UInt8) (p : Nat) (m' : Nat → UInt8) (cmd' : Option Nat) : Prop where
  frame : ∀ x, x < p → m' x = m x
  cut : isSep (m p) = true → m' p = 0
  behind : ∀ p', cmd' = some p' → p < p'

/-- The next call writes the NUL behind a word. -/
theorem Advance.text (h : Advance m p m' cmd') (hw : Held m (some p) q w) : Text m' q w := by
  obtain ⟨⟨hchars, hne⟩, ⟨hzero, hlt⟩ | ⟨hp, hsep⟩⟩ := hw
  · have hlt := hlt p rfl
    exact text_iff.2 ⟨⟨hchars.congr fun x _ hx => h.frame x (by omega), hne⟩, (h.frame _ hlt).trans hzero⟩
  · cases hp
    exact text_iff.2 ⟨⟨hchars.congr fun x _ hx => h.frame x hx, hne⟩, h.cut hsep⟩

theorem Advance.held (h : Advance m p m' cmd') (hw : Held m (some p) q w) : Held m' cmd' q w := by
  obtain ⟨⟨hchars, hne⟩, hzero⟩ := text_iff.1 (h.text hw)
  refine ⟨⟨hchars, hne⟩, Or.inl ⟨hzero, fun p' hp' => ?_⟩⟩
  have hp := h.behind p' hp'
  rcases hw.2 with ⟨-, hlt⟩ | ⟨heq, -⟩
  · exact (hlt p rfl).trans hp
  · cases heq
    exact hp

/-- The rest of the line behind a place where a string starts. -/
theorem rest_restAt (h : Text m p line) : Rest m (restAt m p) line := by
  cases line with
  | nil =>
      have hzero : m p = 0 := h
      rw [restAt, if_neg (by simp [hzero])]
      rfl
  | cons c cs =>
      have hne : m p ≠ 0 := by
        rw [h.1]
        exact h.2.1
      rw [restAt, if_pos hne]
      exact h

theorem restAt_eq_some (h : restAt m p = some q) : q = p := by
  unfold restAt at h
  split at h
  · exact (Option.some.inj h).symm
  · cases h

/-- The scan over a word leaves its text in place of it. -/
theorem scanWord_spec (flag : Bool) (h : Text m p line) (hbound : line.length < bound) :
    ∃ m', scanWord bound m p flag = done (m', p + (lexWord flag line).1.length) ∧
      Chars m' p (lexWord flag line).1 ∧ (∀ c ∈ (lexWord flag line).1, c ≠ 0) ∧
      Text m' (p + (lexWord flag line).1.length) (lexWord flag line).2 ∧ ∀ x, x < p → m' x = m x := by
  induction line generalizing m p bound flag with
  | nil =>
      obtain ⟨bound, rfl⟩ : ∃ k, bound = k + 1 := ⟨bound - 1, by omega⟩
      have hzero : m p = 0 := h
      exact ⟨m, by simp [scanWord, hzero, lexWord], trivial, by simp [lexWord], h, fun _ _ => rfl⟩
  | cons d ds ih =>
      obtain ⟨bound, rfl⟩ : ∃ k, bound = k + 1 := ⟨bound - 1, by omega⟩
      obtain ⟨hpd, hne, htext⟩ := h
      have hlt : ds.length < bound := by simpa using hbound
      by_cases hgo : flag = true ∨ isSep d = false
      · have hgo' : m p ≠ 0 ∧ (flag = true ∨ strchr (whitespace ++ symbols) (m p) = false) := by
          rw [hpd]
          exact ⟨hne, hgo⟩
        rw [scanWord, if_pos hgo', lexWord, if_pos hgo, hpd]
        by_cases hquote : d = 34
        · rw [if_pos hquote, if_pos hquote]
          have htext' : Text (Function.update m p 32) (p + 1) ds :=
            htext.congr fun x hx _ => Function.update_of_ne (by omega) _ _
          obtain ⟨m', hrun, hchars, hnz, hrest, hframe⟩ := ih (!flag) htext' hlt
          refine ⟨m', ?_, ⟨?_, hchars⟩, ?_, ?_, fun x hx => ?_⟩
          · rw [hrun, List.length_cons, Nat.add_right_comm, Nat.add_assoc]
          · rw [hframe p (by omega), Function.update_self]
          · simpa using hnz
          · rwa [List.length_cons, Nat.add_comm _ 1, ← Nat.add_assoc]
          · rw [hframe x (by omega)]
            exact Function.update_of_ne (by omega) _ _
        · rw [if_neg hquote, if_neg hquote]
          obtain ⟨m', hrun, hchars, hnz, hrest, hframe⟩ := ih flag htext hlt
          refine ⟨m', ?_, ⟨?_, hchars⟩, ?_, ?_, fun x hx => hframe x (by omega)⟩
          · rw [hrun, List.length_cons, Nat.add_right_comm, Nat.add_assoc]
          · rw [hframe p (by omega), hpd]
          · simpa [hne] using hnz
          · rwa [List.length_cons, Nat.add_comm _ 1, ← Nat.add_assoc]
      · have hstop : ¬ (m p ≠ 0 ∧ (flag = true ∨ strchr (whitespace ++ symbols) (m p) = false)) := by
          rw [hpd]
          exact fun hand => hgo hand.2
        rw [scanWord, if_neg hstop, lexWord, if_neg hgo]
        exact ⟨m, rfl, trivial, by simp, ⟨hpd, hne, htext⟩, fun _ _ => rfl⟩

/-- What `gettoken` does on the line in memory. -/
inductive Gives (s s' : Scan) (line : List UInt8) : Outcome (Token Nat × Scan) → Prop where
  | stop (hnext : nextToken line = (.stop, [])) (htext : ∀ q w, Held s.mem s.cmd q w → Text s'.mem q w) :
      Gives s s' line (done (.stop, s'))
  | symbol {c : UInt8} {rest : List UInt8} (hnext : nextToken line = (.symbol c, rest))
      (hrest : Rest s'.mem s'.cmd rest) (htext : ∀ q w, Held s.mem s.cmd q w → Text s'.mem q w)
      (hheld : ∀ q w, Held s.mem s.cmd q w → Held s'.mem s'.cmd q w) : Gives s s' line (done (.symbol c, s'))
  | word {t : Nat} {w rest : List UInt8} (hnext : nextToken line = (.word w, rest))
      (hrest : Rest s'.mem s'.cmd rest) (hheld : ∀ q w, Held s.mem s.cmd q w → Held s'.mem s'.cmd q w)
      (hword : Held s'.mem s'.cmd t w) (htail : Text s'.mem t (w ++ rest)) : Gives s s' line (done (.word t, s'))

/-- `gettoken` gives the tokens of the line. -/
theorem gettoken_gives {s : Scan} (h : Rest s.mem s.cmd line) (hbound : line.length < bound) :
    ∃ s', Gives s s' line ((commandLine bound).gettoken s) := by
  obtain ⟨m, cmd, t⟩ := s
  cases cmd with
  | none =>
      have hline : line = [] := h
      subst hline
      refine ⟨⟨m, none, t⟩, Gives.stop nextToken_nil fun q w hw => ?_⟩
      rcases hw with ⟨hchars, ⟨hzero, -⟩ | ⟨hnone, -⟩⟩
      · exact text_iff.2 ⟨hchars, hzero⟩
      · cases hnone
  | some p =>
      have htext : Text m p line := h
      obtain ⟨m₁, hclear, htext₁, hsame, hzero⟩ := clearWhile_spec (strchr whitespace) bound (by decide) htext hbound
      obtain ⟨q, hq⟩ : ∃ q, q = p + (line.takeWhile (strchr whitespace)).length := ⟨_, rfl⟩
      rw [← hq] at hclear htext₁ hsame hzero
      have hle : (line.dropWhile (strchr whitespace)).length ≤ line.length := (List.dropWhile_suffix _).length_le
      -- A separator at the start of the line is white space that is overwritten, or the symbol itself.
      have hstart : isSep (m p) = true → q = p → ∀ c cs, line.dropWhile (strchr whitespace) = c :: cs →
          strchr symbols c = true := by
        intro hsep hqp c cs hrest
        have hblank := dropWhile_head hrest
        have hnil : line.takeWhile (strchr whitespace) = [] := List.length_eq_zero_iff.1 (by omega)
        have hline := List.takeWhile_append_dropWhile (p := strchr whitespace) (l := line)
        rw [hnil, hrest, List.nil_append] at hline
        rw [← hline] at htext
        rw [htext.1] at hsep
        by_contra hc
        rw [isSep_of_not hblank hc] at hsep
        cases hsep
      have hpq : p ≤ q := by omega
      cases hrest : line.dropWhile (strchr whitespace) with
      | nil =>
          rw [hrest] at htext₁
          have hend : m₁ q = 0 := htext₁
          have hnext : nextToken line = (.stop, []) := by
            unfold nextToken
            rw [hrest]
          have hget : (commandLine bound).gettoken ⟨m, some p, t⟩ = done (.stop, ⟨m₁, some p, t⟩) := by
            simp [commandLine, gettoken, hclear, hend]
          have hadv : Advance m p m₁ none := by
            refine ⟨fun x hx => hsame x (Or.inl hx), fun _ => ?_, by simp⟩
            rcases hpq.lt_or_eq with hlt | rfl
            · exact hzero p le_rfl hlt
            · exact hend
          rw [hget]
          exact ⟨_, Gives.stop hnext fun r w hw => hadv.text hw⟩
      | cons c cs =>
          have hblank := dropWhile_head hrest
          rw [hrest] at htext₁ hle
          have hmq : m₁ q = c := htext₁.1
          have hne : c ≠ 0 := htext₁.2.1
          by_cases hc : strchr symbols c = true
          · have hnext : nextToken line = (.symbol c, cs) := by
              unfold nextToken
              rw [hrest]
              simp [hc]
            have hword : c ≠ 119 := by
              rintro rfl
              exact absurd hc (by decide)
            have hget : (commandLine bound).gettoken ⟨m, some p, t⟩ = done (.symbol c,
                ⟨Function.update m₁ q 0, restAt (Function.update m₁ q 0) (q + 1), q⟩) := by
              simp [commandLine, gettoken, hclear, hmq, hne, hc, hword]
            have htail : Text (Function.update m₁ q 0) (q + 1) cs :=
              htext₁.2.2.congr fun x hx _ => Function.update_of_ne (by omega) _ _
            have hadv : Advance m p (Function.update m₁ q 0) (restAt (Function.update m₁ q 0) (q + 1)) := by
              refine ⟨fun x hx => ?_, fun _ => ?_, fun p' hp' => ?_⟩
              · rw [Function.update_of_ne (by omega), hsame x (Or.inl hx)]
              · rcases hpq.lt_or_eq with hlt | rfl
                · rw [Function.update_of_ne (by omega), hzero p le_rfl hlt]
                · exact Function.update_self _ _ _
              · rw [restAt_eq_some hp']
                omega
            rw [hget]
            exact ⟨_, Gives.symbol hnext (rest_restAt htail) (fun _ _ hw => hadv.text hw) fun _ _ hw => hadv.held hw⟩
          · have hsep := isSep_of_not hblank hc
            have hpos := lexWord_pos hsep cs
            have hlen := lexWord_length (c :: cs) false
            have hhead := lexWord_rest (c :: cs) false
            have hnext : nextToken line = (.word (lexWord false (c :: cs)).1, (lexWord false (c :: cs)).2) := by
              unfold nextToken
              rw [hrest]
              simp [hc]
            obtain ⟨m₂, hscan, hchars, hnz, htail, hframe⟩ := scanWord_spec false htext₁
              (lt_of_le_of_lt hle hbound)
            generalize (lexWord false (c :: cs)).1 = w at hnext hpos hlen hscan hchars hnz htail
            generalize (lexWord false (c :: cs)).2 = rest at hnext hlen hhead htail
            have hget : (commandLine bound).gettoken ⟨m, some p, t⟩ =
                done (.word q, ⟨m₂, restAt m₂ (q + w.length), q⟩) := by
              simp [commandLine, gettoken, hclear, hmq, hne, hc, hscan]
            have hadv : Advance m p m₂ (restAt m₂ (q + w.length)) := by
              refine ⟨fun x hx => ?_, fun hstartsep => ?_, fun p' hp' => ?_⟩
              · rw [hframe x (by omega), hsame x (Or.inl hx)]
              · rcases hpq.lt_or_eq with hlt | heq
                · rw [hframe p hlt, hzero p le_rfl hlt]
                · exact absurd (hstart hstartsep heq.symm c cs hrest) hc
              · rw [restAt_eq_some hp']
                omega
            have hheld : Held m₂ (restAt m₂ (q + w.length)) q w := by
              refine ⟨⟨hchars, hnz⟩, ?_⟩
              cases rest with
              | nil =>
                  have hzero' : m₂ (q + w.length) = 0 := htail
                  refine Or.inl ⟨hzero', fun p' hp' => ?_⟩
                  simp [restAt, hzero'] at hp'
              | cons d ds =>
                  have hd : m₂ (q + w.length) = d := htail.1
                  refine Or.inr ⟨?_, ?_⟩
                  · rw [restAt, hd, if_pos htail.2.1]
                  · rw [hd]
                    exact hhead d (by simp)
            rw [hget]
            exact ⟨_, Gives.word hnext (rest_restAt htail) (fun _ _ hw => hadv.held hw) hheld
              (text_append.2 ⟨⟨hchars, hnz⟩, htail⟩)⟩

/-! ## The calls -/

variable {S W : Type} {src : Source S W} {sys : List Call → Int} {p0 p1 : Int} {calls : List Call} {e : Ending}

@[simp] theorem sysCall_snd (sys : List Call → Int) (calls : List Call) (c : Call) :
    (sysCall sys calls c).2 = calls ++ [c] := rfl

/-- The file name goes to `open` as it is. -/
theorem reopen_extends (sys : List Call → Int) (calls : List Call) (fd2 : Int) (filename : List UInt8) (flags : Nat) :
    calls ++ [.close fd2, .open_ filename flags] <+: (reopen sys calls fd2 filename flags).2 := by
  unfold reopen sysCall
  dsimp only
  split
  · simp
  · simp

theorem runit_extends (sys : List Call → Int) (calls : List Call) (argv : List (List UInt8)) :
    calls <+: (runit sys calls argv).calls := by
  unfold runit testfile sysCall
  split
  · exact List.prefix_rfl
  · split
    · split
      · simp
      · exact List.prefix_rfl
    · dsimp only
      split <;> split <;> (try split) <;> simp

/-- The calls made up to the end of a turn. -/
def Next.made : Next S W → List Call
  | .returns e => e.calls
  | .goes _ _ calls => calls

theorem redirect_prefix {fd2 : Int} {flags : Nat} {s : S} {argv : List W} {x : Next S W}
    (h : redirect src sys fd2 flags s argv calls = done x) : calls <+: x.made := by
  obtain ⟨⟨token, s'⟩, -, h⟩ := bind_eq_done.1 h
  cases token with
  | stop =>
      cases h
      exact List.prefix_rfl
  | word t =>
      have hpre := (List.prefix_append _ _).trans (reopen_extends sys calls fd2 (src.text s' t) flags)
      dsimp only at h
      split at h
      · cases h
        exact hpre
      · cases h
        exact hpre
  | symbol c =>
      cases h
      exact List.prefix_rfl

theorem pipe_prefix {s : S} {argv : List W} : calls <+: (pipe src sys p0 p1 s argv calls).made := by
  unfold pipe sysCall
  dsimp only
  split
  · split
    · simp [Next.made]
    · simp [Next.made]
  · split
    · simp [Next.made]
    · split
      · simp [Next.made]
      · refine List.IsPrefix.trans ?_ (runit_extends _ _ _)
        simp

theorem sequence_prefix {s : S} {argv : List W} : calls <+: (sequence src sys s argv calls).made := by
  unfold sequence sysCall
  dsimp only
  split
  · exact (List.prefix_append _ _).trans (runit_extends _ _ _)
  · split
    · simp [Next.made]
    · simp [Next.made]

theorem runToken_prefix {s : S} {argv : List W} {x : Next S W}
    (h : runToken src sys p0 p1 s argv calls = done x) : calls <+: x.made := by
  obtain ⟨⟨token, s'⟩, -, h⟩ := bind_eq_done.1 h
  cases token with
  | stop =>
      cases h
      exact runit_extends _ _ _
  | word t =>
      dsimp only at h
      split at h
      · cases h
        exact List.prefix_rfl
      · cases h
        exact List.prefix_rfl
  | symbol c =>
      dsimp only at h
      split at h
      · exact redirect_prefix h
      · split at h
        · exact redirect_prefix h
        · split at h
          · cases h
            exact pipe_prefix
          · split at h
            · cases h
              exact sequence_prefix
            · cases h
              exact List.prefix_rfl

/-- The calls made are never taken back. -/
theorem runLoop_prefix {s : S} {argv : List W} (h : runLoop src sys p0 p1 n s argv calls = done e) :
    calls <+: e.calls := by
  induction n generalizing s argv calls with
  | zero => cases h
  | succ n ih =>
      obtain ⟨x, hx, h⟩ := bind_eq_done.1 h
      have hpre := runToken_prefix hx
      cases x with
      | returns e' =>
          cases h
          exact hpre
      | goes s' argv' calls' => exact hpre.trans (ih h)

/-- What follows a turn extends the calls of the turn. -/
theorem runLoop_made {s : S} {argv : List W} {x : Next S W} (hx : runToken src sys p0 p1 s argv calls = done x)
    (h : runLoop src sys p0 p1 (n + 1) s argv calls = done e) : x.made <+: e.calls := by
  rw [runLoop, hx, bind_done] at h
  cases x with
  | returns e' =>
      cases h
      exact List.prefix_rfl
  | goes s' argv' calls' => exact runLoop_prefix h

/-! ## The run in memory and the run over the tokens -/

variable {s : Scan} {argv : List Nat} {texts : List (List UInt8)} {fd2 : Int} {flags : Nat}

theorem stringAt_of_text {cs : List UInt8} (h : Text m p cs) (hn : cs.length ≤ n) : stringAt m n p = cs := by
  induction cs generalizing p n with
  | nil =>
      have hzero : m p = 0 := h
      cases n with
      | zero => rfl
      | succ n => rw [stringAt, if_pos hzero]
  | cons c cs ih =>
      obtain ⟨hpc, hne, htext⟩ := h
      obtain ⟨n, rfl⟩ : ∃ k, n = k + 1 := ⟨n - 1, by simp at hn; omega⟩
      rw [stringAt, hpc, if_neg hne, ih htext (by simpa using hn)]

/-- A word and what is behind it come from the line. -/
theorem nextToken_word {rest' : List UInt8} (h : nextToken line = (.word w, rest')) :
    w.length + rest'.length ≤ line.length := by
  have hle : (line.dropWhile (strchr whitespace)).length ≤ line.length := (List.dropWhile_suffix _).length_le
  unfold nextToken at h
  cases hrest : line.dropWhile (strchr whitespace) with
  | nil =>
      rw [hrest] at h
      cases h
  | cons c cs =>
      rw [hrest] at h hle
      dsimp only at h
      split at h
      · cases h
      · cases h
        rw [lexWord_length]
        exact hle

/-- The scan in memory is at the same place of the line, with the same words. -/
structure Rel (bound : Nat) (s : Scan) (line : List UInt8) (argv : List Nat) (texts : List (List UInt8)) : Prop where
  rest : Rest s.mem s.cmd line
  held : List.Forall₂ (Held s.mem s.cmd) argv texts
  short : ∀ w ∈ texts, w.length < bound

/-- Words whose NUL is written have their texts. -/
theorem map_text (h : List.Forall₂ (Text s.mem) argv texts) (hshort : ∀ w ∈ texts, w.length < bound) :
    argv.map ((commandLine bound).text s) = texts := by
  induction h with
  | nil => rfl
  | @cons q w qs ws hqw _ ih =>
      have hfirst : (commandLine bound).text s q = w := stringAt_of_text hqw (hshort w List.mem_cons_self).le
      rw [List.map_cons, hfirst, ih fun v hv => hshort v (List.mem_cons_of_mem _ hv)]

/-- Turns that lead to the same. -/
inductive Same (bound : Nat) : Next Scan Nat → Next (List UInt8) (List UInt8) → Prop where
  | returns (e : Ending) : Same bound (.returns e) (.returns e)
  | goes {s : Scan} {line : List UInt8} {argv : List Nat} {texts : List (List UInt8)} {calls : List Call}
      (h : Rel bound s line argv texts) : Same bound (.goes s argv calls) (.goes line texts calls)

theorem pipe_same (hrest : Rest s.mem s.cmd line) (htexts : argv.map ((commandLine bound).text s) = texts) :
    Same bound (pipe (commandLine bound) sys p0 p1 s argv calls) (pipe tokenList sys p0 p1 line texts calls) := by
  have hself : texts.map (tokenList.text line) = texts := List.map_id _
  unfold pipe
  rw [htexts, hself]
  dsimp only
  split
  · split
    · exact Same.returns _
    · exact Same.goes ⟨hrest, List.Forall₂.nil, by simp⟩
  · split
    · exact Same.returns _
    · split
      · exact Same.returns _
      · exact Same.returns _

theorem sequence_same (hrest : Rest s.mem s.cmd line) (htexts : argv.map ((commandLine bound).text s) = texts) :
    Same bound (sequence (commandLine bound) sys s argv calls) (sequence tokenList sys line texts calls) := by
  have hself : texts.map (tokenList.text line) = texts := List.map_id _
  unfold sequence
  rw [htexts, hself]
  dsimp only
  split
  · exact Same.returns _
  · split
    · exact Same.returns _
    · exact Same.goes ⟨hrest, List.Forall₂.nil, by simp⟩

/-- A redirection whose file name ends the line. -/
theorem redirect_same (h : Rel bound s line argv texts) (hbound : line.length < bound)
    (hends : ∀ w rest', nextToken line = (.word w, rest') → rest' = []) :
    ∃ x y, redirect (commandLine bound) sys fd2 flags s argv calls = done x ∧
      redirect tokenList sys fd2 flags line texts calls = done y ∧ Same bound x y := by
  obtain ⟨s', hgives⟩ := gettoken_gives h.rest hbound
  generalize hget : (commandLine bound).gettoken s = x at hgives
  cases hgives with
  | stop hnext htext =>
      refine ⟨.returns ⟨-1, calls⟩, .returns ⟨-1, calls⟩, ?_, ?_, Same.returns _⟩
      · rw [redirect, hget]
        rfl
      · simp [redirect, tokenList, hnext]
  | symbol hnext hrest htext hheld =>
      refine ⟨.returns ⟨-1, calls⟩, .returns ⟨-1, calls⟩, ?_, ?_, Same.returns _⟩
      · rw [redirect, hget]
        rfl
      · simp [redirect, tokenList, hnext]
  | @word t w rest hnext hrest hheld hword htail =>
      have hnil := hends w rest hnext
      subst hnil
      have hlen := nextToken_word hnext
      rw [List.append_nil] at htail
      have hname : (commandLine bound).text s' t = w := stringAt_of_text htail (by omega)
      have hrel : Rel bound s' [] argv texts := ⟨hrest, h.held.imp fun _ _ hqw => hheld _ _ hqw, h.short⟩
      by_cases hret : (reopen sys calls fd2 w flags).1 ≠ 0
      · refine ⟨_, _, ?_, ?_, Same.returns ⟨(reopen sys calls fd2 w flags).1, (reopen sys calls fd2 w flags).2⟩⟩
        · rw [redirect, hget, bind_done]
          dsimp only
          rw [hname, if_pos hret]
          rfl
        · simp [redirect, tokenList, hnext, hret]
      · refine ⟨.goes s' argv (reopen sys calls fd2 w flags).2, .goes [] texts (reopen sys calls fd2 w flags).2, ?_, ?_,
          Same.goes hrel⟩
        · rw [redirect, hget, bind_done]
          dsimp only
          rw [hname, if_neg hret]
          rfl
        · simp [redirect, tokenList, hnext, not_not.1 hret]

/-- A redirection whose file name is followed by something: all of it goes to `open`. -/
theorem redirect_differs {rest' : List UInt8} (sys : List Call → Int) (fd2 : Int) (flags : Nat) (argv : List Nat)
    (texts : List (List UInt8)) (calls : List Call) (h : Rest s.mem s.cmd line) (hbound : line.length < bound)
    (hnext : nextToken line = (.word w, rest')) :
    ∃ x y, redirect (commandLine bound) sys fd2 flags s argv calls = done x ∧
      redirect tokenList sys fd2 flags line texts calls = done y ∧
      calls ++ [.close fd2, .open_ (w ++ rest') flags] <+: x.made ∧
      calls ++ [.close fd2, .open_ w flags] <+: y.made := by
  obtain ⟨s', hgives⟩ := gettoken_gives h hbound
  generalize hget : (commandLine bound).gettoken s = x at hgives
  cases hgives with
  | stop hnext' => exact absurd (hnext.symm.trans hnext') (by simp)
  | symbol hnext' => exact absurd (hnext.symm.trans hnext') (by simp)
  | @word t w' rest hnext' hrest hheld hword htail =>
      cases hnext.symm.trans hnext'
      have hlen := nextToken_word hnext
      have hname : (commandLine bound).text s' t = w ++ rest' :=
        stringAt_of_text htail (by rw [List.length_append]; omega)
      have hmem : ∃ x, redirect (commandLine bound) sys fd2 flags s argv calls = done x ∧
          x.made = (reopen sys calls fd2 (w ++ rest') flags).2 := by
        rw [redirect, hget, bind_done]
        dsimp only
        rw [hname]
        split
        · exact ⟨_, rfl, rfl⟩
        · exact ⟨_, rfl, rfl⟩
      have htok : ∃ y, redirect tokenList sys fd2 flags line texts calls = done y ∧
          y.made = (reopen sys calls fd2 w flags).2 := by
        simp only [redirect, tokenList, hnext, bind_done]
        by_cases hret : (reopen sys calls fd2 w flags).1 ≠ 0
        · exact ⟨_, if_pos hret, rfl⟩
        · exact ⟨_, if_neg hret, rfl⟩
      obtain ⟨x, hx, hxmade⟩ := hmem
      obtain ⟨y, hy, hymade⟩ := htok
      refine ⟨x, y, hx, hy, ?_, ?_⟩
      · rw [hxmade]
        exact reopen_extends _ _ _ _ _
      · rw [hymade]
        exact reopen_extends _ _ _ _ _

/-- A turn in memory and the turn over the tokens lead to the same, if a redirection ends the line. -/
theorem runToken_same (sys : List Call → Int) (p0 p1 : Int) (calls : List Call) (h : Rel bound s line argv texts) (hbound : line.length < bound) (hends : RedirectEnds line) :
    ∃ x y, runToken (commandLine bound) sys p0 p1 s argv calls = done x ∧
      runToken tokenList sys p0 p1 line texts calls = done y ∧ Same bound x y := by
  obtain ⟨s', hgives⟩ := gettoken_gives h.rest hbound
  generalize hget : (commandLine bound).gettoken s = x at hgives
  cases hgives with
  | stop hnext htext =>
      have htexts := map_text (h.held.imp fun _ _ hqw => htext _ _ hqw) h.short
      refine ⟨_, _, ?_, ?_, Same.returns (runit sys calls texts)⟩
      · rw [runToken, hget, bind_done]
        dsimp only
        rw [htexts]
        rfl
      · simp [runToken, tokenList, hnext]
  | @word t w rest hnext hrest hheld hword htail =>
      have hlen := nextToken_word hnext
      have hargc : argv.length = texts.length := h.held.length_eq
      by_cases hfull : argv.length = execMaxArgNum
      · refine ⟨_, _, ?_, ?_, Same.returns ⟨-1, calls⟩⟩
        · rw [runToken, hget, bind_done]
          dsimp only
          rw [if_pos hfull]
          rfl
        · simp [runToken, tokenList, hnext, ← hargc, hfull]
      · have hrel : Rel bound s' rest (argv ++ [t]) (texts ++ [w]) := by
          refine ⟨hrest, List.rel_append (h.held.imp fun _ _ hqw => hheld _ _ hqw)
            (List.Forall₂.cons hword List.Forall₂.nil), fun v hv => ?_⟩
          rcases List.mem_append.1 hv with hv | hv
          · exact h.short v hv
          · rw [List.mem_singleton.1 hv]
            omega
        refine ⟨.goes s' (argv ++ [t]) calls, .goes rest (texts ++ [w]) calls, ?_, ?_, Same.goes hrel⟩
        · rw [runToken, hget, bind_done]
          dsimp only
          rw [if_neg hfull]
          rfl
        · simp [runToken, tokenList, hnext, ← hargc, hfull]
  | @symbol c rest hnext hrest htext hheld =>
      have htexts := map_text (h.held.imp fun _ _ hqw => htext _ _ hqw) h.short
      have hrel : Rel bound s' rest argv texts := ⟨hrest, h.held.imp fun _ _ hqw => hheld _ _ hqw, h.short⟩
      have hshort : rest.length < line.length := by
        rcases nextToken_length line with ⟨_, hstop⟩ | hlt
        · rw [hnext] at hstop
          cases hstop
        · rwa [hnext] at hlt
      have hlast : c = 60 ∨ c = 62 → ∀ w rest', nextToken rest = (.word w, rest') → rest' = [] :=
        fun hc w rest' hw => hends c rest w rest' hnext hc hw
      simp only [runToken, hget, tokenList, hnext, bind_done]
      by_cases hin : c = 60
      · simp only [if_pos hin]
        exact redirect_same hrel (by omega) (hlast (Or.inl hin))
      · simp only [if_neg hin]
        by_cases hout : c = 62
        · simp only [if_pos hout]
          exact redirect_same hrel (by omega) (hlast (Or.inr hout))
        · simp only [if_neg hout]
          by_cases hpipe : c = 124
          · simp only [if_pos hpipe]
            exact ⟨_, _, rfl, rfl, pipe_same hrest htexts⟩
          · simp only [if_neg hpipe]
            by_cases hseq : c = 59
            · simp only [if_pos hseq]
              exact ⟨_, _, rfl, rfl, sequence_same hrest htexts⟩
            · simp only [if_neg hseq]
              exact ⟨_, _, rfl, rfl, Same.returns _⟩

/-- A redirection that does not end the line: the two turns open different files. -/
theorem runToken_differs (sys : List Call → Int) (p0 p1 : Int) (argv : List Nat) (texts : List (List UInt8))
    (calls : List Call) (h : Rest s.mem s.cmd line) (hbound : line.length < bound) (hends : ¬ RedirectEnds line) :
    ∃ x y fd2 flags name name', runToken (commandLine bound) sys p0 p1 s argv calls = done x ∧
      runToken tokenList sys p0 p1 line texts calls = done y ∧ name ≠ name' ∧
      calls ++ [.close fd2, .open_ name flags] <+: x.made ∧ calls ++ [.close fd2, .open_ name' flags] <+: y.made := by
  simp only [RedirectEnds, not_forall] at hends
  obtain ⟨c, rest, w, rest', hnext, hc, hword, hne⟩ := hends
  obtain ⟨s', hgives⟩ := gettoken_gives h hbound
  generalize hget : (commandLine bound).gettoken s = x at hgives
  have hnames : w ++ rest' ≠ w := fun heq => hne (List.append_cancel_left (heq.trans (List.append_nil w).symm))
  cases hgives with
  | stop hnext' => exact absurd (hnext.symm.trans hnext') (by simp)
  | word hnext' => exact absurd (hnext.symm.trans hnext') (by simp)
  | symbol hnext' hrest =>
      cases hnext.symm.trans hnext'
      have hshort : rest.length < line.length := by
        rcases nextToken_length line with ⟨_, hstop⟩ | hlt
        · rw [hnext] at hstop
          cases hstop
        · rwa [hnext] at hlt
      have hless : rest.length < bound := by omega
      simp only [runToken, hget, tokenList, hnext, bind_done]
      rcases hc with hin | hout
      · simp only [if_pos hin]
        obtain ⟨x, y, hx, hy, hxm, hym⟩ := redirect_differs sys 0 oRdonly argv texts calls hrest hless hword
        exact ⟨x, y, _, _, _, _, hx, hy, hnames, hxm, hym⟩
      · have hin : ¬ c = 60 := by rw [hout]; decide
        simp only [if_neg hin, if_pos hout]
        obtain ⟨x, y, hx, hy, hxm, hym⟩ := redirect_differs sys 1 oOutput argv texts calls hrest hless hword
        exact ⟨x, y, _, _, _, _, hx, hy, hnames, hxm, hym⟩

/-- A turn over the tokens is defined, and a turn after it has less of the line. -/
theorem runToken_shorter (sys : List Call → Int) (p0 p1 : Int) (line : List UInt8) (texts : List (List UInt8))
    (calls : List Call) :
    ∃ y, runToken tokenList sys p0 p1 line texts calls = done y ∧
      ∀ line' argv' calls', y = .goes line' argv' calls' → line'.length < line.length := by
  have hlt := nextToken_length line
  have hredirect : ∀ (fd2 : Int) (flags : Nat) (rest : List UInt8), rest.length < line.length →
      ∃ y, redirect tokenList sys fd2 flags rest texts calls = done y ∧
        ∀ line' argv' calls', y = .goes line' argv' calls' → line'.length < line.length := by
    intro fd2 flags rest hrest
    have hlt' := nextToken_length rest
    obtain ⟨⟨token, rest'⟩, hnext⟩ : ∃ x, nextToken rest = x := ⟨_, rfl⟩
    rw [hnext] at hlt'
    simp only [redirect, tokenList, hnext, bind_done]
    cases token with
    | stop => exact ⟨_, rfl, by simp⟩
    | symbol c => exact ⟨_, rfl, by simp⟩
    | word w =>
        have hshort : rest'.length < rest.length := by simpa using hlt'
        by_cases hret : (reopen sys calls fd2 w flags).1 ≠ 0
        · exact ⟨_, if_pos hret, by simp⟩
        · refine ⟨_, if_neg hret, fun line' argv' calls' hgoes => ?_⟩
          cases hgoes
          omega
  obtain ⟨⟨token, rest⟩, hnext⟩ : ∃ x, nextToken line = x := ⟨_, rfl⟩
  rw [hnext] at hlt
  simp only [runToken, tokenList, hnext, bind_done] at hredirect ⊢
  cases token with
  | stop => exact ⟨_, rfl, by simp⟩
  | word w =>
      have hshort : rest.length < line.length := by simpa using hlt
      by_cases hfull : texts.length = execMaxArgNum
      · exact ⟨_, if_pos hfull, by simp⟩
      · refine ⟨_, if_neg hfull, fun line' argv' calls' hgoes => ?_⟩
        cases hgoes
        exact hshort
  | symbol c =>
      have hshort : rest.length < line.length := by simpa using hlt
      dsimp only
      by_cases hin : c = 60
      · simp only [if_pos hin]
        exact hredirect _ _ _ hshort
      · simp only [if_neg hin]
        by_cases hout : c = 62
        · simp only [if_pos hout]
          exact hredirect _ _ _ hshort
        · simp only [if_neg hout]
          by_cases hpipe : c = 124
          · simp only [if_pos hpipe]
            refine ⟨_, rfl, fun line' argv' calls' hgoes => ?_⟩
            unfold pipe at hgoes
            dsimp only at hgoes
            repeat' split at hgoes
            all_goals first
              | cases hgoes; exact hshort
              | cases hgoes
          · simp only [if_neg hpipe]
            by_cases hseq : c = 59
            · simp only [if_pos hseq]
              refine ⟨_, rfl, fun line' argv' calls' hgoes => ?_⟩
              unfold sequence at hgoes
              dsimp only at hgoes
              repeat' split at hgoes
              all_goals first
                | cases hgoes; exact hshort
                | cases hgoes
            · simp only [if_neg hseq]
              exact ⟨_, rfl, by simp⟩

/-- The run over the tokens ends. -/
theorem runTokens_done (sys : List Call → Int) (p0 p1 : Int) (texts : List (List UInt8)) (calls : List Call)
    (hn : line.length < n) : ∃ e, runLoop tokenList sys p0 p1 n line texts calls = done e := by
  induction n generalizing line texts calls with
  | zero => omega
  | succ n ih =>
      obtain ⟨y, hy, hshort⟩ := runToken_shorter sys p0 p1 line texts calls
      rw [runLoop, hy, bind_done]
      cases y with
      | returns e => exact ⟨e, rfl⟩
      | goes line' argv' calls' =>
          have hlt := hshort line' argv' calls' rfl
          exact ih _ _ (by omega)

/-- The run in memory is the run over the tokens if and only if every redirection that it reaches ends the
line. -/
theorem runLoop_iff (h : Rel bound s line argv texts) (hbound : line.length < bound) (hn : line.length < n) :
    runLoop (commandLine bound) sys p0 p1 n s argv calls = runLoop tokenList sys p0 p1 n line texts calls ↔
      RedirectsLast sys p0 p1 n line texts calls := by
  induction n generalizing s line argv texts calls with
  | zero => omega
  | succ n ih =>
      obtain ⟨y, hy, hshort⟩ := runToken_shorter sys p0 p1 line texts calls
      by_cases hends : RedirectEnds line
      · obtain ⟨x, y', hx, hy', hsame⟩ := runToken_same sys p0 p1 calls h hbound hends
        cases hy.symm.trans hy'
        rw [runLoop, runLoop, hx, hy, bind_done, bind_done, RedirectsLast, hy]
        cases hsame with
        | returns e => simp [hends]
        | @goes s' line' argv' texts' calls' hrel =>
            have hlt := hshort line' texts' calls' rfl
            rw [ih hrel (by omega) (by omega)]
            constructor
            · rintro hlast
              refine ⟨hends, fun line'' argv'' calls'' heq => ?_⟩
              cases heq
              exact hlast
            · rintro ⟨-, hlast⟩
              exact hlast _ _ _ rfl
      · refine iff_of_false (fun heq => ?_) fun hlast => hends hlast.1
        obtain ⟨x, y', fd2, flags, name, name', hx, hy', hne, hxm, hym⟩ := runToken_differs sys p0 p1 argv texts calls
          h.rest hbound hends
        obtain ⟨e, he⟩ := runTokens_done sys p0 p1 texts calls hn
        have hpre := hxm.trans (runLoop_made hx (heq.trans he))
        have hpre' := hym.trans (runLoop_made hy' he)
        have hsame := List.prefix_of_prefix_length_le hpre hpre' (by simp)
        have heq' := hsame.eq_of_length (by simp)
        simp only [List.append_cancel_left_eq, List.cons.injEq, Call.open_.injEq] at heq'
        exact hne heq'.2.1.1

/-- Shell parsing: `gettoken` gives the tokens of its grammar; and the calls that `runcmd` makes, with the words in
them, are the ones that the tokens ask for, if and only if each redirection that the run reaches has its file
name at the end of the line. -/
theorem shell_parsing (sys : List Call → Int) (p0 p1 : Int) (bound : Nat) (m : Nat → UInt8) (p : Nat)
    (line : List UInt8) (h : Text m p line) (hbound : line.length < bound) :
    (∀ s : Scan, Rest s.mem s.cmd line → ∃ s', Gives s s' line ((commandLine bound).gettoken s)) ∧
      ((∃ e, runcmd sys p0 p1 bound m p = done e ∧ runTokens sys p0 p1 bound line = done e) ↔
        RedirectsLast sys p0 p1 bound line [] []) := by
  refine ⟨fun s hs => gettoken_gives hs hbound, ?_⟩
  have hrel : Rel bound { mem := m, cmd := some p, t := 0 } line [] [] := ⟨h, List.Forall₂.nil, by simp⟩
  obtain ⟨e, he⟩ := runTokens_done sys p0 p1 [] [] hbound
  rw [← runLoop_iff hrel hbound hbound]
  constructor
  · rintro ⟨e', hrun, htokens⟩
    exact hrun.trans htokens.symm
  · intro heq
    exact ⟨e, heq.trans he, he⟩

/-- The line `cat<f>g`. -/
def catLine : List UInt8 := [99, 97, 116, 60, 102, 62, 103]

/-- The line `cat <f`. -/
def catWord : List UInt8 := [99, 97, 116, 32, 60, 102]

/-- The memory that holds a line at `0`. -/
def lineMem (line : List UInt8) : Nat → UInt8 := fun x => line.getD x 0

/-- The last redirection of a line is right: `cat <f` opens `f`, here without success. -/
theorem shell_parsing_last : ∃ e, runcmd (fun _ => -16) 0 0 16 (lineMem catWord) 0 = done e ∧
    e.calls = [.close 0, .open_ [102] 0] := by
  have htext : Text (lineMem catWord) 0 catWord := by simp [Text, lineMem, catWord]
  have hlast : RedirectsLast (fun _ => -16) 0 0 16 catWord [] [] := by
    have hcat : nextToken catWord = (.word [99, 97, 116], [32, 60, 102]) := rfl
    have hin : nextToken [32, 60, 102] = (.symbol 60, [102]) := rfl
    have hname : nextToken [102] = (.word [102], []) := rfl
    have hgo : runToken tokenList (fun _ => -16) 0 0 catWord [] [] =
        done (.goes [32, 60, 102] [[99, 97, 116]] []) := rfl
    have hend : runToken tokenList (fun _ => -16) 0 0 [32, 60, 102] [[99, 97, 116]] [] =
        done (.returns ⟨-16, [.close 0, .open_ [102] 0]⟩) := rfl
    refine ⟨fun c rest w rest' hnext => ?_, fun line' argv' calls' hnext => ?_⟩
    · cases hcat.symm.trans hnext
    · cases hgo.symm.trans hnext
      refine ⟨fun c rest w rest' hnext _ hword => ?_, fun line' argv' calls' hnext => ?_⟩
      · cases hin.symm.trans hnext
        cases hname.symm.trans hword
        rfl
      · cases hend.symm.trans hnext
  obtain ⟨e, hrun, htokens⟩ := (shell_parsing (fun _ => -16) 0 0 16 (lineMem catWord) 0 catWord htext
    (by decide)).2.2 hlast
  refine ⟨e, hrun, ?_⟩
  have hthese : runTokens (fun _ => -16) 0 0 16 catWord = done ⟨-16, [.close 0, .open_ [102] 0]⟩ := by decide
  cases htokens.symm.trans hthese
  rfl

/-- `cat<f>g` opens the file `f>g`, where its tokens ask for `f`. -/
theorem shell_parsing_adjacent :
    runcmd (fun _ => -16) 0 0 16 (lineMem catLine) 0 = done ⟨-16, [.close 0, .open_ [102, 62, 103] 0]⟩ ∧
      runTokens (fun _ => -16) 0 0 16 catLine = done ⟨-16, [.close 0, .open_ [102] 0]⟩ := by
  exact ⟨by decide, by decide⟩

end Sh
end TriOS
