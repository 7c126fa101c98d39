import TriOS.Libs.String

/-!
# kmonitor.c, readline.c — the lines of the kernel monitor

`readline` collects the characters of a line, with their edits, in a static buffer, and `parse` cuts the line
in place into words.
-/

namespace TriOS
namespace Kmonitor

open Outcome CString

/-- `MAXARGS` -/
def maxargs : Nat := 16

/-- `WHITESPACE` -/
def whitespace : List UInt8 := [32, 9, 10, 13]

/-- `BUFSIZE` -/
def bufsize : Nat := 1024

/-! ## readline -/

/-- What `readline` has come to: it waits for the next character, it has returned `NULL`, or it has returned
its buffer, with the characters that are left. -/
inductive Reading where
  | waits (i : Nat) (buf : Nat → UInt8)
  | null
  | line (buf : Nat → UInt8) (rest : List Int)

/-- The loop of `readline`, on the characters that `getchar` gives. -/
def readlineLoop : List Int → Nat → (Nat → UInt8) → Reading
  | [], i, buf => .waits i buf
  | c :: cs, i, buf =>
      if c < 0 then .null
      else if c ≥ 32 ∧ i < bufsize - 1 then readlineLoop cs (i + 1) (Function.update buf i (UInt8.ofNat c.toNat))
      else if c = 8 ∧ 0 < i then readlineLoop cs (i - 1) buf
      else if c = 10 ∨ c = 13 then .line (Function.update buf i 0) cs
      else readlineLoop cs i buf

/-- `readline`, without the echo of what is typed -/
def readline (buf : Nat → UInt8) (cs : List Int) : Reading :=
  readlineLoop cs 0 buf

/-! ## parse -/

/-- The loop of `parse` over white space. -/
def skipBlanks (bound : Nat) (m : Nat → UInt8) (buf : Nat) : Outcome ((Nat → UInt8) × Nat) :=
  clearWhile (fun c => c ≠ 0 && strchr whitespace c) bound m buf

/-- The loop of `parse` over an argument. -/
def skipWord : Nat → (Nat → UInt8) → Nat → Outcome Nat
  | 0, _, _ => fuel
  | bound + 1, m, buf =>
      if m buf ≠ 0 ∧ strchr whitespace (m buf) = false then skipWord bound m (buf + 1)
      else done buf

/-- `parse` from `buf` on, with the arguments stored so far. The result has the arguments and the memory; a
store behind the last entry of `argv` has no defined result. The message for too many arguments is left out. -/
def parseLoop : Nat → (Nat → UInt8) → Nat → List Nat → Outcome (List Nat × (Nat → UInt8))
  | 0, _, _, _ => fuel
  | bound + 1, m, buf, argv => do
      let (m, buf) ← skipBlanks bound m buf
      if m buf = 0 then pure (argv, m)
      else if argv.length < maxargs then do
        let stop ← skipWord bound m buf
        parseLoop bound m stop (argv ++ [buf])
      else wrap

/-- `parse`; its return value is the number of arguments. -/
def parse (bound : Nat) (m : Nat → UInt8) (buf : Nat) : Outcome (List Nat × (Nat → UInt8)) :=
  parseLoop bound m buf []

/-! ## What the two are for -/

/-- The effect of a character that does not end the line. -/
def edit (line : List UInt8) (c : UInt8) : List UInt8 :=
  if 32 ≤ c then (if line.length < bufsize - 1 then line ++ [c] else line)
  else if c = 8 then line.dropLast
  else line

/-- The characters end a line. -/
def EndsLine (c : UInt8) : Prop := c = 10 ∨ c = 13

/-- The maximal runs of characters that are not white space. -/
def words (line : List UInt8) : List (List UInt8) :=
  (line.splitOnP (strchr whitespace)).filter (· ≠ [])

/-! ## The edits -/

variable {m m' buf : Nat → UInt8} {p i bound : Nat} {c : UInt8} {cs line rest : List UInt8} {argv : List Nat}

/-- The characters of a line have their places in the buffer, and none of them is NUL. -/
structure Collected (buf : Nat → UInt8) (line : List UInt8) : Prop where
  chars : Chars buf 0 line
  ne_zero : ∀ c ∈ line, c ≠ 0
  length_le : line.length ≤ bufsize - 1

theorem Collected.push (h : Collected buf line) (hc : 32 ≤ c) (hroom : line.length < bufsize - 1) :
    Collected (Function.update buf line.length c) (line ++ [c]) := by
  refine ⟨chars_append.2 ⟨h.chars.congr fun x _ hx => ?_, ?_, trivial⟩, fun d hd => ?_, ?_⟩
  · exact Function.update_of_ne (by omega) _ _
  · rw [Nat.zero_add, Function.update_self]
  · rcases List.mem_append.1 hd with hd | hd
    · exact h.ne_zero d hd
    · rw [List.mem_singleton.1 hd]
      rintro rfl
      exact absurd hc (by decide)
  · rw [List.length_append, List.length_singleton]
    omega

theorem Collected.pop (h : Collected buf line) : Collected buf line.dropLast := by
  rcases List.eq_nil_or_concat line with rfl | ⟨front, d, rfl⟩
  · exact h
  · rw [List.concat_eq_append] at h ⊢
    rw [List.dropLast_concat]
    refine ⟨(chars_append.1 h.chars).1, fun c hc => h.ne_zero c (List.mem_append_left _ hc), ?_⟩
    have hle := h.length_le
    rw [List.length_append] at hle
    omega

/-- The line so far after a character that does not end it. -/
theorem readlineLoop_edit (h : Collected buf line) (hc : ¬ EndsLine c) (rest : List Int) :
    ∃ buf', Collected buf' (edit line c) ∧
      readlineLoop (c.toNat :: rest) line.length buf = readlineLoop rest (edit line c).length buf' := by
  have hnonneg : ¬ (c.toNat : Int) < 0 := by omega
  have hle : (c.toNat : Int) ≥ 32 ↔ 32 ≤ c := by
    rw [UInt8.le_iff_toNat_le]
    exact Int.ofNat_le
  have hback : (c.toNat : Int) = 8 ↔ c = 8 := by
    rw [← UInt8.toNat_inj]
    exact Int.ofNat_inj
  have hends : ¬ ((c.toNat : Int) = 10 ∨ (c.toNat : Int) = 13) := by
    intro hor
    refine hc (hor.imp (fun h10 => ?_) fun h13 => ?_)
    · exact UInt8.toNat_inj.1 (Int.ofNat_inj.1 h10)
    · exact UInt8.toNat_inj.1 (Int.ofNat_inj.1 h13)
  rw [readlineLoop, if_neg hnonneg]
  by_cases hprint : 32 ≤ c
  · have hnotback : c ≠ 8 := by
      rintro rfl
      exact absurd hprint (by decide)
    by_cases hroom : line.length < bufsize - 1
    · refine ⟨Function.update buf line.length c, ?_, ?_⟩
      · rw [edit, if_pos hprint, if_pos hroom]
        exact h.push hprint hroom
      · rw [if_pos ⟨hle.2 hprint, hroom⟩, edit, if_pos hprint, if_pos hroom, List.length_append,
          List.length_singleton, Int.toNat_natCast, UInt8.ofNat_toNat]
    · -- The line is full.
      refine ⟨buf, ?_, ?_⟩
      · rw [edit, if_pos hprint, if_neg hroom]
        exact h
      · rw [if_neg fun hand => hroom hand.2, if_neg fun hand => hnotback (hback.1 hand.1), if_neg hends, edit,
          if_pos hprint, if_neg hroom]
  · rw [if_neg fun hand => hprint (hle.1 hand.1), edit, if_neg hprint]
    by_cases hbs : c = 8
    · refine ⟨buf, ?_, ?_⟩
      · rw [if_pos hbs]
        exact h.pop
      · rw [if_pos hbs, List.length_dropLast]
        by_cases hpos : 0 < line.length
        · rw [if_pos ⟨hback.2 hbs, hpos⟩]
        · have hzero : line.length - 1 = line.length := by omega
          rw [if_neg fun hand => hpos hand.2, if_neg hends, hzero]
    · refine ⟨buf, ?_, ?_⟩
      · rw [if_neg hbs]
        exact h
      · rw [if_neg hbs, if_neg fun hand => hbs (hback.1 hand.1), if_neg hends]

/-- The line so far after any number of characters. -/
theorem readlineLoop_edits (h : Collected buf line) (hcs : ∀ c ∈ cs, ¬ EndsLine c) (rest : List Int) :
    ∃ buf', Collected buf' (cs.foldl edit line) ∧
      readlineLoop (cs.map (fun c => (c.toNat : Int)) ++ rest) line.length buf =
        readlineLoop rest (cs.foldl edit line).length buf' := by
  induction cs generalizing line buf with
  | nil => exact ⟨buf, h, rfl⟩
  | cons c cs ih =>
      obtain ⟨buf₁, h₁, hstep⟩ := readlineLoop_edit h (hcs c List.mem_cons_self)
        (cs.map (fun c => (c.toNat : Int)) ++ rest)
      obtain ⟨buf₂, h₂, hrest⟩ := ih h₁ fun d hd => hcs d (List.mem_cons_of_mem _ hd)
      exact ⟨buf₂, h₂, hstep.trans hrest⟩

/-- The end of the line. -/
theorem readline_line {e : UInt8} (buf : Nat → UInt8) (hcs : ∀ c ∈ cs, ¬ EndsLine c) (he : EndsLine e)
    (rest : List Int) :
    ∃ buf', readline buf (cs.map (fun c => (c.toNat : Int)) ++ (e.toNat : Int) :: rest) = .line buf' rest ∧
      Text buf' 0 (cs.foldl edit []) ∧ (cs.foldl edit []).length ≤ bufsize - 1 := by
  have hempty : Collected buf [] := ⟨trivial, by simp, Nat.zero_le _⟩
  obtain ⟨buf₁, h₁, hrun⟩ := readlineLoop_edits hempty hcs ((e.toNat : Int) :: rest)
  refine ⟨Function.update buf₁ (cs.foldl edit []).length 0, ?_, text_iff.2 ⟨⟨?_, h₁.ne_zero⟩, ?_⟩, h₁.length_le⟩
  · refine hrun.trans ?_
    rcases he with rfl | rfl
    · simp [readlineLoop]
    · simp [readlineLoop]
  · exact h₁.chars.congr fun x _ hx => Function.update_of_ne (by omega) _ _
  · rw [Nat.zero_add, Function.update_self]

/-! ## The words -/

/-- White space in front of a line counts for nothing. -/
theorem words_blank (hc : strchr whitespace c = true) (cs : List UInt8) : words (c :: cs) = words cs := by
  have hnone : ∀ d ∈ ([] : List UInt8), strchr whitespace d = false := by simp
  rw [words, ← List.nil_append (c :: cs), List.splitOnP_append_cons_of_forall_mem hnone c hc cs]
  rfl

theorem words_dropWhile (line : List UInt8) : words (line.dropWhile (strchr whitespace)) = words line := by
  induction line with
  | nil => rfl
  | cons c cs ih =>
      by_cases hc : strchr whitespace c = true
      · rw [List.dropWhile_cons_of_pos hc, ih, words_blank hc]
      · rw [List.dropWhile_cons_of_neg hc]

/-- A character that is not white space starts the first word. -/
theorem words_cons (hc : strchr whitespace c = false) (cs : List UInt8) :
    words (c :: cs) = (c :: cs).takeWhile (fun d => !strchr whitespace d) ::
      words ((c :: cs).dropWhile fun d => !strchr whitespace d) := by
  have hword : ∀ d ∈ (c :: cs).takeWhile (fun d => !strchr whitespace d), strchr whitespace d = false := by
    intro d hd
    simpa using List.mem_takeWhile_imp hd
  have hne : (c :: cs).takeWhile (fun d => !strchr whitespace d) ≠ [] := by
    simp [hc]
  have hsplit := (List.takeWhile_append_dropWhile (p := fun d => !strchr whitespace d) (l := c :: cs)).symm
  generalize (c :: cs).takeWhile (fun d => !strchr whitespace d) = w at hword hne hsplit ⊢
  generalize hrest : (c :: cs).dropWhile (fun d => !strchr whitespace d) = rest at hsplit ⊢
  rw [hsplit]
  cases rest with
  | nil =>
      rw [List.append_nil, words, List.splitOnP_eq_singleton hword]
      simp [words, hne]
  | cons d ds =>
      have hd : strchr whitespace d = true := by
        have hhead := List.head_dropWhile_not (fun d => !strchr whitespace d) (l := c :: cs) (by simp [hrest])
        simpa [hrest] using hhead
      rw [words, List.splitOnP_append_cons_of_forall_mem hword d hd, List.filter_cons_of_pos (by simpa using hne),
        words_blank hd]
      rfl

/-- The test for NUL in the loop over white space does nothing. -/
theorem skipBlanks_eq (bound : Nat) (m : Nat → UInt8) (buf : Nat) :
    skipBlanks bound m buf = clearWhile (strchr whitespace) bound m buf := by
  unfold skipBlanks
  congr 1
  funext c
  by_cases hc : c = 0
  · rw [hc]
    decide
  · simp [hc]

/-- An argument is passed over. -/
theorem skipWord_spec (h : Text m p line) (hbound : line.length < bound) :
    skipWord bound m p = done (p + (line.takeWhile fun d => !strchr whitespace d).length) := by
  induction line generalizing p bound with
  | nil =>
      obtain ⟨bound, rfl⟩ : ∃ k, bound = k + 1 := ⟨bound - 1, by omega⟩
      have hstop : ¬ (m p ≠ 0 ∧ strchr whitespace (m p) = false) := fun hand => hand.1 h
      simp [skipWord, hstop]
  | cons c cs ih =>
      obtain ⟨bound, rfl⟩ : ∃ k, bound = k + 1 := ⟨bound - 1, by omega⟩
      obtain ⟨hpc, hne, htext⟩ := h
      cases hc : strchr whitespace c with
      | false =>
          have hgo : m p ≠ 0 ∧ strchr whitespace (m p) = false := by
            rw [hpc]
            exact ⟨hne, hc⟩
          have hpos : (!strchr whitespace c) = true := by rw [hc]; rfl
          rw [skipWord, if_pos hgo, ih htext (by simpa using hbound),
            List.takeWhile_cons_of_pos (p := fun d => !strchr whitespace d) hpos, List.length_cons,
            Nat.add_right_comm, Nat.add_assoc]
      | true =>
          have hstop : ¬ (m p ≠ 0 ∧ strchr whitespace (m p) = false) := by
            rw [hpc, hc]
            simp
          have hneg : ¬ (!strchr whitespace c) = true := by rw [hc]; simp
          rw [skipWord, if_neg hstop, List.takeWhile_cons_of_neg (p := fun d => !strchr whitespace d) hneg]
          rfl

/-- `parse` stores the words of the line if `argv` has room for them all, and otherwise goes past its end. -/
theorem parseLoop_spec (argv : List Nat) (h : Text m p line) (hbound : line.length + 1 < bound) (hargv : argv.length ≤ maxargs) :
    (argv.length + (words line).length ≤ maxargs ∧ ∃ argv' m', parseLoop bound m p argv = done (argv ++ argv', m') ∧
      List.Forall₂ (Text m') argv' (words line) ∧ (∀ x, x < p → m' x = m x) ∧
      ((∀ c, line.head? = some c → strchr whitespace c = true) → m' p = 0)) ∨
    (maxargs < argv.length + (words line).length ∧ parseLoop bound m p argv = wrap) := by
  induction bound generalizing m p line argv with
  | zero => omega
  | succ bound ih =>
      obtain ⟨m₁, hskip, htext, hsame, hzero⟩ := clearWhile_spec (strchr whitespace) bound (by decide) h (by omega)
      have hle : (line.dropWhile (strchr whitespace)).length ≤ line.length := (List.dropWhile_suffix _).length_le
      obtain ⟨q, hq⟩ : ∃ q, q = p + (line.takeWhile (strchr whitespace)).length := ⟨_, rfl⟩
      -- A line that starts with white space is cut at its start.
      have hcut : (∀ c, line.head? = some c → strchr whitespace c = true) → line ≠ [] → p < q := by
        intro hhead hne
        obtain ⟨c, cs, rfl⟩ := List.exists_cons_of_ne_nil hne
        rw [hq, List.takeWhile_cons_of_pos (hhead c rfl), List.length_cons]
        omega
      rw [← hq] at hskip htext hsame hzero
      rw [← words_dropWhile, parseLoop, skipBlanks_eq, hskip, bind_done]
      dsimp only
      cases hrest : line.dropWhile (strchr whitespace) with
      | nil =>
          rw [hrest] at htext
          refine Or.inl ⟨hargv, [], m₁, ?_, List.Forall₂.nil, fun x hx => hsame x (Or.inl hx), fun hhead => ?_⟩
          · have hend : m₁ q = 0 := htext
            rw [if_pos hend, List.append_nil, pure_eq_done]
          · by_cases hne : line = []
            · have hpq : p = q := by rw [hq, hne]; rfl
              rw [hpq]
              exact htext
            · exact hzero p le_rfl (hcut hhead hne)
      | cons c cs =>
          have hc := dropWhile_head hrest
          rw [hrest] at htext hle
          have hnonzero : ¬ m₁ q = 0 := by
            rw [htext.1]
            exact htext.2.1
          have hwords := words_cons hc cs
          rw [if_neg hnonzero]
          by_cases hroom : argv.length < maxargs
          · rw [if_pos hroom, skipWord_spec htext (by omega), bind_done]
            have hsplit := (List.takeWhile_append_dropWhile (p := fun d => !strchr whitespace d) (l := c :: cs)).symm
            have hpos : 0 < ((c :: cs).takeWhile fun d => !strchr whitespace d).length := by
              rw [List.takeWhile_cons_of_pos (by rw [hc]; rfl), List.length_cons]
              exact Nat.succ_pos _
            have hafter : ∀ d, ((c :: cs).dropWhile fun d => !strchr whitespace d).head? = some d →
                strchr whitespace d = true := by
              intro d hd
              cases hds : (c :: cs).dropWhile fun d => !strchr whitespace d with
              | nil => simp [hds] at hd
              | cons e es =>
                  have hhead := List.head_dropWhile_not (fun d => !strchr whitespace d) (l := c :: cs) (by simp [hds])
                  simp only [hds, List.head?_cons, Option.some.injEq, List.head_cons] at hd hhead
                  simpa [hd] using hhead
            generalize (c :: cs).takeWhile (fun d => !strchr whitespace d) = w at hsplit hpos hwords ⊢
            generalize (c :: cs).dropWhile (fun d => !strchr whitespace d) = rest at hsplit hafter hwords ⊢
            have hlen : (c :: cs).length = w.length + rest.length := by rw [hsplit, List.length_append]
            rw [hsplit, text_append] at htext
            rw [hwords, List.length_cons]
            rcases ih (argv ++ [q]) htext.2 (by omega) (by simpa using hroom) with
              ⟨hfit, argv', m', hrun, hall, hframe, hend⟩ | ⟨hover, hrun⟩
            · refine Or.inl ⟨?_, q :: argv', m', ?_, List.Forall₂.cons ?_ hall, fun x hx => ?_, fun hhead => ?_⟩
              · rw [List.length_append, List.length_singleton] at hfit
                omega
              · rw [hrun, List.append_assoc]
                rfl
              · exact text_iff.2 ⟨⟨htext.1.1.congr fun x _ hx => hframe x hx, htext.1.2⟩, hend hafter⟩
              · rw [hframe x (by omega), hsame x (Or.inl hx)]
              · have hpq := hcut hhead (by rintro rfl; simp at hrest)
                rw [hframe p (by omega)]
                exact hzero p le_rfl hpq
            · refine Or.inr ⟨?_, hrun⟩
              rw [List.length_append, List.length_singleton] at hover
              omega
          · rw [if_neg hroom, hwords, List.length_cons]
            exact Or.inr ⟨by omega, rfl⟩

/-- The monitor reads and cuts its lines as it should: `readline` returns the line with its edits, and `parse`
stores exactly the words of a line if and only if there are at most `MAXARGS` of them. -/
theorem monitor_lines (m : Nat → UInt8) (p bound : Nat) (line : List UInt8) (h : Text m p line)
    (hbound : line.length + 1 < bound) :
    (∀ (buf : Nat → UInt8) (cs : List UInt8) (e : UInt8) (rest : List Int), (∀ c ∈ cs, ¬ EndsLine c) → EndsLine e →
      ∃ buf', readline buf (cs.map (fun c => (c.toNat : Int)) ++ (e.toNat : Int) :: rest) = .line buf' rest ∧
        Text buf' 0 (cs.foldl edit []) ∧ (cs.foldl edit []).length ≤ bufsize - 1) ∧
      ((∃ argv m', parse bound m p = done (argv, m') ∧ List.Forall₂ (Text m') argv (words line)) ↔
        (words line).length ≤ maxargs) := by
  refine ⟨fun buf cs e rest hcs he => readline_line buf hcs he rest, ?_⟩
  rcases parseLoop_spec [] h hbound (Nat.zero_le _) with ⟨hfit, argv, m', hrun, hall, -⟩ | ⟨hover, hrun⟩
  · exact ⟨fun _ => by simpa using hfit, fun _ => ⟨argv, m', hrun, hall⟩⟩
  · constructor
    · rintro ⟨argv, m', hdone, -⟩
      cases hdone.symm.trans hrun
    · intro hfit
      exact absurd hover (by simpa using hfit)

/-- The memory that holds `a a a …`, with `n` words. -/
def manyWords (n : Nat) : Nat → UInt8 := fun x => if x < 2 * n then (if x % 2 = 0 then 97 else 32) else 0

/-- A line of two words. -/
theorem monitor_lines_twoWords : ∃ argv m', parse 64 (manyWords 2) 0 = done (argv, m') ∧
    List.Forall₂ (Text m') argv [[97], [97]] := by
  have htext : Text (manyWords 2) 0 [97, 32, 97, 32] := by
    simp [Text, manyWords]
  have hwords : words [97, 32, 97, 32] = [[97], [97]] := by decide
  have h := (monitor_lines (manyWords 2) 0 64 [97, 32, 97, 32] htext (by decide)).2.2 (by decide)
  rwa [hwords] at h

/-- A line of seventeen words, as `readline` may return it, goes past the end of `argv`. -/
theorem monitor_lines_overrun : ∃ line, Text (manyWords 17) 0 line ∧ line.foldl edit [] = line ∧
    (words line).length = 17 ∧ parse 64 (manyWords 17) 0 = wrap := by
  have htext : Text (manyWords 17) 0 (List.replicate 17 [97, 32]).flatten := by
    simp [List.replicate, Text, manyWords]
  have hcount : (words (List.replicate 17 [97, 32]).flatten).length = 17 := by decide
  refine ⟨(List.replicate 17 [97, 32]).flatten, htext, by decide +kernel, hcount, ?_⟩
  have hbound : (List.replicate 17 [(97 : UInt8), 32]).flatten.length + 1 < 64 := by decide
  rcases parseLoop_spec [] htext hbound (Nat.zero_le _) with ⟨hfit, -⟩ | ⟨-, hrun⟩
  · rw [hcount] at hfit
    exact absurd hfit (by decide)
  · exact hrun

end Kmonitor
end TriOS
