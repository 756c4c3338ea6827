/-
  ObjectMachine/Proofs/SourceGrammar.lean
  =======================================
  **What a source text says** — the grammar of lines, apart from how they are read.

  A line is a row of tokens, a statement is some labels and then at most one instruction,
  and an operand has one of five spellings.  The relations below say this without a word
  about the order in which a reader goes through the characters; the lemma after each one
  says that what the reader accepts it has read as the grammar has it.
-/
import ObjectMachine.Assembly.Layout
import ObjectMachine.Proofs.Runs
import Mathlib.Data.List.TakeWhile
import Mathlib.Data.Nat.Digits.Defs
import Mathlib.Tactic.Ring

namespace ObjectMachine

/-! ### Tokens -/

namespace Token

/-- Characters after an opening quote, the text that they spell, and what stands after the
    closing quote. -/
inductive Literal : List Char → List Char → List Char → Prop where
  | close {rest : List Char} : Literal ('"' :: rest) [] rest
  | escape {c : Char} {cs text rest : List Char} (tail : Literal cs text rest) :
      Literal ('\\' :: c :: cs) (unescape c :: text) rest
  | plain {c : Char} {cs text rest : List Char} (quote : c ≠ '"') (backslash : c ≠ '\\')
      (tail : Literal cs text rest) : Literal (c :: cs) (c :: text) rest

/-- The tokens of a line.  A word goes on as far as it can. -/
inductive Line : List Char → List Token → Prop where
  | done : Line [] []
  | comment {cs : List Char} : Line (';' :: cs) []
  | blank {c : Char} {cs : List Char} {tokens : List Token} (blank : Text.isBlank c = true)
      (rest : Line cs tokens) : Line (c :: cs) tokens
  | quoted {cs text after : List Char} {tokens : List Token} (literal : Literal cs text after)
      (rest : Line after tokens) : Line ('"' :: cs) (.quoted (String.ofList text) :: tokens)
  | word {c : Char} {cs after : List Char} {tokens : List Token} (start : c ≠ '"')
      (chars : ∀ d ∈ c :: cs, isWordChar d = true)
      (stop : ∀ d ∈ after.head?, isWordChar d = false) (rest : Line after tokens) :
      Line (c :: cs ++ after) (.word (String.ofList (c :: cs)) :: tokens)

theorem literal_of_literal? {cs text after : List Char} (h : literal cs = some (text, after)) :
    Literal cs text after := by
  fun_induction literal cs generalizing text with
  | case1 => cases h
  | case2 rest =>
    cases h
    exact .close
  | case3 c rest ih =>
    obtain ⟨⟨t, a⟩, found, pair⟩ := Option.map_eq_some_iff.1 h
    cases pair
    exact .escape (ih found)
  | case4 c rest quote backslash ih =>
    obtain ⟨⟨t, a⟩, found, pair⟩ := Option.map_eq_some_iff.1 h
    cases pair
    have plain : c ≠ '\\' := by
      rintro rfl
      cases rest with
      | nil => simp [literal] at found
      | cons d rest => exact backslash d rest rfl rfl
    exact .plain quote plain (ih found)

theorem line_of_scan {cs : List Char} {tokens : List Token} (h : scan cs = some tokens) :
    Line cs tokens := by
  fun_induction scan cs generalizing tokens with
  | case1 =>
    cases h
    exact .done
  | case2 c rest blank ih => exact .blank blank (ih h)
  | case3 rest blank =>
    cases h
    exact .comment
  | case4 rest _ _ _ => cases h
  | case5 rest text after found _ _ ih =>
    obtain ⟨others, read, rfl⟩ := Option.map_eq_some_iff.1 h
    exact .quoted (literal_of_literal? found) (ih read)
  | case6 c rest blank semicolon quote ih =>
    obtain ⟨others, read, rfl⟩ := Option.map_eq_some_iff.1 h
    have split : c :: rest = c :: rest.takeWhile isWordChar ++ rest.dropWhile isWordChar := by
      rw [List.cons_append, List.takeWhile_append_dropWhile]
    rw [split]
    refine .word quote ?_ ?_ (ih read)
    · intro d mem
      rcases List.mem_cons.1 mem with rfl | mem
      · simp [isWordChar, blank, semicolon]
      · exact List.mem_takeWhile_imp mem
    · intro d mem
      have := List.head?_dropWhile_not isWordChar rest
      rw [Option.mem_def.1 mem] at this
      simpa using this

end Token

/-! ### Numerals -/

namespace Numeral

/-- One or more digits, most significant first, and the number that they are to a base. -/
def Positional (base : Nat) (digit? : Char → Option Nat) (cs : List Char) (n : Nat) : Prop :=
  cs ≠ [] ∧ ∃ digits : List Nat, cs.map digit? = digits.map some ∧
    n = Nat.ofDigits base digits.reverse

/-- The value of a numeral without its minus sign. -/
inductive Magnitude : List Char → Int → Prop where
  | decimal {cs : List Char} {n : Nat} (digits : Positional 10 decimalDigit? cs n) :
      Magnitude cs n
  | hex {cs : List Char} {n : Nat} (digits : Positional 16 hexDigit? cs n) :
      Magnitude ('0' :: 'x' :: cs) n
  | plusHex {cs : List Char} {n : Nat} (digits : Positional 16 hexDigit? cs n) :
      Magnitude ('0' :: 'x' :: '+' :: cs) n
  | minusHex {cs : List Char} {n : Nat} (digits : Positional 16 hexDigit? cs n) :
      Magnitude ('0' :: 'x' :: '-' :: cs) (-n)

/-- The word that a numeral denotes: its value modulo `2 ^ 32`, where it fits a word, read as
    signed or as unsigned. -/
inductive Denotes : List Char → Word → Prop where
  | plain {cs : List Char} {value : Int} (magnitude : Magnitude cs value)
      (low : -2 ^ 31 ≤ value) (high : value < 2 ^ 32) : Denotes cs (Word.ofInt value)
  | minus {cs : List Char} {value : Int} (magnitude : Magnitude cs value)
      (low : -2 ^ 31 ≤ -value) (high : -value < 2 ^ 32) : Denotes ('-' :: cs) (Word.ofInt (-value))

theorem foldlM_digits {base : Nat} {digit? : Char → Option Nat} {cs : List Char} {k n : Nat}
    (h : cs.foldlM (fun n c => (digit? c).map (n * base + ·)) k = some n) :
    ∃ digits : List Nat, cs.map digit? = digits.map some ∧
      n = k * base ^ digits.length + Nat.ofDigits base digits.reverse := by
  induction cs generalizing k with
  | nil =>
    cases h
    exact ⟨[], rfl, by simp⟩
  | cons c cs ih =>
    rw [List.foldlM_cons] at h
    obtain ⟨k', first, h⟩ := Option.bind_eq_some_iff.1 h
    obtain ⟨d, digit, rfl⟩ := Option.map_eq_some_iff.1 first
    obtain ⟨digits, others, rfl⟩ := ih h
    refine ⟨d :: digits, by simp [digit, others], ?_⟩
    simp only [List.reverse_cons, List.length_cons, Nat.ofDigits_append, Nat.ofDigits_singleton,
      List.length_reverse]
    ring

theorem positional_of_digits? {base : Nat} {digit? : Char → Option Nat} {cs : List Char} {n : Nat}
    (h : digits? base digit? cs = some n) : Positional base digit? cs n := by
  unfold digits? at h
  split at h
  · cases h
  · rename_i nonempty
    obtain ⟨digits, each, value⟩ := foldlM_digits h
    refine ⟨?_, digits, each, ?_⟩
    · rintro rfl
      exact nonempty rfl
    · simpa using value

theorem exists_positional {base : Nat} {digit? : Char → Option Nat} {cs : List Char} {f : Int → Int}
    {value : Int} (h : ((digits? base digit? cs).bind fun n => some (n : Int)).map f = some value) :
    ∃ n : Nat, Positional base digit? cs n ∧ value = f n := by
  obtain ⟨lifted, found, rfl⟩ := Option.map_eq_some_iff.1 h
  obtain ⟨n, digits, cast⟩ := Option.bind_eq_some_iff.1 found
  cases cast
  exact ⟨n, positional_of_digits? digits, rfl⟩

theorem magnitude_of_magnitude? {cs : List Char} {value : Int} (h : magnitude? cs = some value) :
    Magnitude cs value := by
  unfold magnitude? at h
  split at h
  · rename_i hex
    unfold signedHex? at h
    split at h
    · obtain ⟨n, digits, rfl⟩ := exists_positional h
      exact .minusHex digits
    · obtain ⟨n, digits, rfl⟩ := exists_positional h
      exact .plusHex digits
    · obtain ⟨n, digits, rfl⟩ := exists_positional h
      exact .hex digits
  · split at h
    · obtain ⟨n, digits, rfl⟩ := exists_positional h
      exact .decimal digits
    · cases h
  · cases h

theorem toWord?_eq_some {value : Int} {w : Word} (h : toWord? value = some w) :
    -2 ^ 31 ≤ value ∧ value < 2 ^ 32 ∧ w = Word.ofInt value := by
  unfold toWord? at h
  split at h
  · rename_i fits
    cases h
    exact ⟨fits.1, fits.2, rfl⟩
  · cases h

theorem denotes_of_read {cs : List Char} {w : Word} (h : read cs = .ok (some w)) :
    Denotes cs w := by
  unfold read at h
  split at h
  · split at h
    · cases h
    · rename_i value found
      split at h
      · cases h
      · obtain ⟨low, high, rfl⟩ := toWord?_eq_some (Except.ok.inj h)
        exact .minus (magnitude_of_magnitude? found) low high
  · obtain ⟨value, found, fits⟩ := Option.bind_eq_some_iff.1 (Except.ok.inj h)
    obtain ⟨low, high, rfl⟩ := toWord?_eq_some fits
    exact .plain (magnitude_of_magnitude? found) low high

end Numeral

/-! ### Operands -/

namespace Operand

/-- How an operand is written. -/
inductive Spelled : Token → Operand → Prop where
  | text (text : String) : Spelled (.quoted text) (.text text)
  | number {digits : String} {w : Word} (numeral : Numeral.Denotes digits.toList w) :
      Spelled (.word ("#" ++ digits)) (.number w)
  | label {name : String} (identifier : isIdentifier name.toList = true) :
      Spelled (.word ("@" ++ name)) (.label name)
  | word {digits : String} {w : Word} (numeral : Numeral.Denotes digits.toList w) :
      Spelled (.word digits) (.word w)
  | name {name : String} (identifier : isIdentifier name.toList = true) :
      Spelled (.word name) (.name name)

theorem spelled_of_ofWord? {word : String} {operand : Operand}
    (h : ofWord? word = .ok (some operand)) : Spelled (.word word) operand := by
  unfold ofWord? at h
  split at h
  · rename_i cs chars
    obtain ⟨value, read, h⟩ := exists_of_bind_eq_ok h
    obtain ⟨w, rfl, rfl⟩ := Option.map_eq_some_iff.1 (Except.ok.inj h)
    have word_eq : word = "#" ++ String.ofList cs := by
      apply String.toList_inj.1
      simp [chars]
    rw [word_eq]
    exact .number (by simpa using Numeral.denotes_of_read read)
  · rename_i cs chars
    split at h
    · rename_i identifier
      cases h
      have word_eq : word = "@" ++ String.ofList cs := by
        apply String.toList_inj.1
        simp [chars]
      rw [word_eq]
      exact .label (by simpa using identifier)
    · cases h
  · obtain ⟨value, read, h⟩ := exists_of_bind_eq_ok h
    cases value with
    | some w =>
      cases h
      exact .word (Numeral.denotes_of_read read)
    | none =>
      by_cases identifier : isIdentifier word.toList = true
      · rw [if_pos identifier] at h
        cases h
        exact .name identifier
      · rw [if_neg identifier] at h
        cases h

end Operand

/-! ### Statements -/

/-- What a line says: the labels that it defines, and an instruction if it has one. -/
structure Statement where
  labels : List String
  instruction : Option (Opcode × List Operand)
  deriving DecidableEq

namespace Statement

/-- The tokens of an instruction as written. -/
inductive Body : List Token → Option (Opcode × List Operand) → Prop where
  | none : Body [] none
  | some {op : Opcode} {tokens : List Token} {operands : List Operand}
      (spelled : List.Forall₂ Operand.Spelled tokens operands) :
      Body (.word op.mnemonic :: tokens) (some (op, operands))

/-- **A line says a statement.**  In front stand its labels, each with a colon after it, and
    then its instruction. -/
def Says (text : List Char) (statement : Statement) : Prop :=
  ∃ body, Token.Line text (statement.labels.map (fun name => .word (name ++ ":")) ++ body) ∧
    Body body statement.instruction

end Statement

theorem Token.labelName?_eq_some {text name : String} (h : labelName? text = some name) :
    text = name ++ ":" := by
  unfold labelName? at h
  split at h
  · rename_i last
    cases h
    apply String.toList_inj.1
    obtain ⟨front, chars⟩ := List.getLast?_eq_some_iff.1 last
    simp [chars]
  · cases h

theorem Token.leadingLabels_eq (tokens : List Token) :
    tokens = (leadingLabels tokens).1.map (fun name => .word (name ++ ":")) ++
      (leadingLabels tokens).2 := by
  fun_induction leadingLabels tokens with
  | case1 text rest name found names body labels ih =>
    rw [labels] at ih
    rw [Token.labelName?_eq_some found, List.map_cons, List.cons_append, ← ih]
  | case2 text rest => rfl
  | case3 tokens => rfl

theorem Opcode.mnemonic_of_ofMnemonic? {name : String} {op : Opcode}
    (h : ofMnemonic? name = some op) : op.mnemonic = name := by
  simpa using Array.find?_some h

namespace Layout

theorem spelled_of_operand {number : Nat} {token : Token} {operand : Operand}
    (h : Layout.operand number token = .ok operand) : Operand.Spelled token operand := by
  cases token with
  | quoted text =>
    cases h
    exact .text text
  | word word =>
    rw [Layout.operand] at h
    split at h
    · rename_i found
      cases h
      exact Operand.spelled_of_ofWord? found
    · cases h
    · cases h

theorem spelled_of_mapM {number : Nat} {tokens : List Token} {operands : List Operand}
    (h : tokens.mapM (operand number) = .ok operands) :
    List.Forall₂ Operand.Spelled tokens operands := by
  induction tokens generalizing operands with
  | nil =>
    cases h
    exact .nil
  | cons token tokens ih =>
    rw [List.mapM_cons] at h
    obtain ⟨first, read, h⟩ := exists_of_bind_eq_ok h
    obtain ⟨others, rest, h⟩ := exists_of_bind_eq_ok h
    cases h
    exact .cons (spelled_of_operand read) (ih rest)

theorem body_of_sourceLine {number : Nat} {head : Token} {tail : List Token} {line : SourceLine}
    (h : sourceLine number head tail = .ok line) :
    Statement.Body (head :: tail) (some (line.op, line.operands)) ∧
      line.operands.length = line.op.arity := by
  obtain ⟨op, known, h⟩ := exists_of_bind_eq_ok h
  obtain ⟨operands, read, h⟩ := exists_of_bind_eq_ok h
  split at h
  · rename_i arity
    cases h
    refine ⟨?_, arity⟩
    cases head with
    | quoted text => cases known
    | word word =>
      rw [opcode] at known
      split at known
      · rename_i found
        cases known
        rw [← Opcode.mnemonic_of_ofMnemonic? found]
        exact .some (spelled_of_mapM read)
      · cases known
  · cases h

end Layout

end ObjectMachine
