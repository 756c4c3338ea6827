/-
  ObjectMachine/Proofs/LiteralText.lean
  =====================================
  **Every text can be written as a literal.**

  Writing puts a backslash before what would end a literal, or a line, or be lost; reading takes
  one written character after the other off its front.  So a written text is read back whatever
  is in it, and it takes no line feed to write one.
-/
import ObjectMachine.Proofs.ReportedErrors

namespace ObjectMachine

/-! ### Writing a text -/

namespace Token

/-- How a character is written inside a literal. -/
def escapeChar (c : Char) : List Char :=
  if c = '\\' then ['\\', '\\']
  else if c = '"' then ['\\', '"']
  else if c = '\n' then ['\\', 'n']
  else if c = '\t' then ['\\', 't']
  else [c]

/-- How a text is written inside a literal. -/
def escape (text : List Char) : List Char := text.flatMap escapeChar

/-- A written character is read as the character. -/
theorem Literal.cons_escapeChar {cs text rest : List Char} (c : Char)
    (tail : Literal cs text rest) : Literal (escapeChar c ++ cs) (c :: text) rest := by
  unfold escapeChar
  split_ifs with backslash quote newline tab
  · subst backslash
    exact .escape tail
  · subst quote
    exact .escape tail
  · subst newline
    exact .escape tail
  · subst tab
    exact .escape tail
  · exact .plain quote backslash tail

theorem literal_escape (text rest : List Char) :
    Literal (escape text ++ '"' :: rest) text rest := by
  induction text with
  | nil => exact .close
  | cons c text ih =>
    rw [escape, List.flatMap_cons, List.append_assoc]
    exact ih.cons_escapeChar c

theorem newline_notMem_escapeChar (c : Char) : '\n' ∉ escapeChar c := by
  unfold escapeChar
  split_ifs with _ _ newline <;> simp
  exact Ne.symm newline

theorem newline_notMem_escape (text : List Char) : '\n' ∉ escape text := by
  simp [escape, newline_notMem_escapeChar]

/-! ### The rest of a line -/

/-- What may stand on a line after its last token: blanks, and then perhaps a comment. -/
inductive Trailer : List Char → Prop where
  | done : Trailer []
  | comment {text : List Char} (line : '\n' ∉ text) : Trailer (';' :: text)
  | blank {c : Char} {cs : List Char} (blank : Text.isBlank c = true) (line : c ≠ '\n')
      (rest : Trailer cs) : Trailer (c :: cs)

theorem Trailer.line {cs : List Char} (trailer : Trailer cs) : Line cs [] := by
  induction trailer with
  | done => exact .done
  | comment => exact .comment
  | blank blank _ _ ih => exact .blank blank ih

theorem Trailer.newline_notMem {cs : List Char} (trailer : Trailer cs) : '\n' ∉ cs := by
  induction trailer with
  | done => simp
  | comment line => simp [line]
  | blank _ line _ ih => simp [ih, Ne.symm line]

end Token

theorem Text.lines_go_of_notMem {line text : List Char} (nonempty : line.reverse ++ text ≠ [])
    (newline : '\n' ∉ text) : lines.go line text = [line.reverse ++ text] := by
  induction text generalizing line with
  | nil => cases line <;> simp_all [lines.go]
  | cons c text ih =>
    rw [List.mem_cons, not_or] at newline
    rw [lines.go, ih (by simp) newline.2]
    · simp
    · exact Ne.symm newline.1

/-- A text without a line feed is one line. -/
theorem Text.lines_of_notMem {text : List Char} (nonempty : text ≠ []) (newline : '\n' ∉ text) :
    lines text = [text] :=
  lines_go_of_notMem nonempty newline

/-! ### The line -/

/-- The line that makes a text a string constant and pushes its string. -/
def literalLine (text : String) (trailer : List Char) : String :=
  "new-str \"" ++ String.ofList (Token.escape text.toList) ++ "\"" ++ String.ofList trailer

section

variable {text : String} {trailer : List Char}

theorem toList_literalLine : (literalLine text trailer).toList =
    "new-str".toList ++ ' ' :: '"' :: (Token.escape text.toList ++ '"' :: trailer) := by
  simp [literalLine]

theorem line_literalLine (h : Token.Trailer trailer) :
    Token.Line (literalLine text trailer).toList [.word "new-str", .quoted text] := by
  have quoted := Token.Line.quoted (Token.literal_escape text.toList trailer) h.line
  rw [String.ofList_toList] at quoted
  rw [toList_literalLine]
  have chars : ∀ d ∈ 'n' :: "ew-str".toList, Token.isWordChar d = true :=
    List.all_eq_true.1 (by decide)
  exact .word (by decide) chars (by simp [Token.isWordChar, Text.isBlank])
    (.blank (by decide) quoted)

theorem lines_literalLine (h : Token.Trailer trailer) :
    Text.lines (literalLine text trailer).toList = [(literalLine text trailer).toList] := by
  apply Text.lines_of_notMem
  · simp [toList_literalLine]
  · simp [toList_literalLine, Token.newline_notMem_escape, h.newline_notMem]

/-- The line has one instruction. -/
theorem ofSource_literalLine (h : Token.Trailer trailer) :
    Layout.ofSource (literalLine text trailer) =
      .ok (Layout.push {} ⟨1, .newStr, [.text text]⟩) := by
  have spelled : List.Forall₂ Operand.Spelled [.quoted text] [.text text] :=
    .cons (.text text) .nil
  have instruction : Layout.sourceLine 1 (.word "new-str") [.quoted text] =
      .ok ⟨1, .newStr, [.text text]⟩ := @Layout.sourceLine_of_spelled 1 .newStr _ _ spelled
  have free : Token.Unlabelled [.word "new-str", .quoted text] :=
    Statement.Body.unlabelled (@Statement.Body.some .newStr _ _ spelled)
  have line : Layout.addLine {} 1 (literalLine text trailer).toList =
      .ok (Layout.push {} ⟨1, .newStr, [.text text]⟩) := by
    rw [@Layout.addLine_of_line {} 1 _ [] _ (line_literalLine h) free]
    simp only [instruction]
    rfl
  rw [Layout.ofSource, lines_literalLine h, Layout.addLines, line]
  rfl

/-- What assembling the line does: one constant, one instruction. -/
theorem assemble_literalLine {σ : Type} (h : Token.Trailer trailer) (r : Resolver σ) (s : σ) :
    (assemble r (literalLine text trailer)).run.run s =
      (.ok (Instruction.encodeAll [.newStr ((r.text text).run s).1]), ((r.text text).run s).2) := by
  unfold assemble
  rw [ofSource_literalLine h]
  rfl

end

/-- **Every text can be written as a literal**, with blanks and a comment behind it or without.  The
    line assembles for every host; the host is asked for the constant and for nothing else, and the
    code is the one instruction with the index that the host gives it. -/
theorem literal_makes_constant {σ : Type} (text : String) {trailer : List Char}
    (h : Token.Trailer trailer) (r : Resolver σ) (s : σ) :
    (assemble r (literalLine text trailer)).run.run s =
        (.ok (Instruction.encodeAll [.newStr ((r.text text).run s).1]),
          ((r.text text).run s).2) ∧
      r.callsMade (literalLine text trailer) s = [.text text] := by
  constructor
  · exact assemble_literalLine h r s
  · rw [Resolver.callsMade, assemble_literalLine h r.logged]
    rfl

/-- A text of what a literal has to be careful with. -/
def awkwardText : String := "\"\\;\n\t\r \u2028\\\""

theorem awkwardText_makes_constant :
    Token.Trailer " \u3000;\"\r".toList ∧
      literalLine awkwardText " \u3000;\"\r".toList =
        "new-str \"\\\"\\\\;\\n\\t\r \u2028\\\\\\\"\" \u3000;\"\r" ∧
      (assemble tally (literalLine awkwardText " \u3000;\"\r".toList)).run.run 2 =
        (.ok (Instruction.encodeAll [.newStr 2]), 3) ∧
      tally.callsMade (literalLine awkwardText " \u3000;\"\r".toList) 2 = [.text awkwardText] := by
  have trailer : Token.Trailer " \u3000;\"\r".toList :=
    .blank (by decide) (by decide) (.blank (by decide) (by decide) (.comment (by decide)))
  exact ⟨trailer, by decide +kernel, literal_makes_constant awkwardText trailer tally 2⟩

end ObjectMachine
