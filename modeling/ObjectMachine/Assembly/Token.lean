/-
  ObjectMachine/Assembly/Token.lean
  =================================
  **Tokens of a source line** — words between blanks, and string literals.

  A semicolon outside a literal starts a comment, also in the middle of a word.
  Inside a literal a backslash gives the next character a meaning: `n` is a line
  feed, `t` a tab, and any other character is itself.
-/
import ObjectMachine.Text.Blank

namespace ObjectMachine

/-- A piece of a source line. -/
inductive Token where
  | word (text : String)
  | quoted (text : String)
  deriving DecidableEq, Repr

namespace Token

/-- What a character stands for after a backslash. -/
def unescape : Char → Char
  | 'n' => '\n'
  | 't' => '\t'
  | c => c

/-- Reads a literal after its opening quote: its text and what follows its closing
    quote, or `none` if it never closes. -/
def literal : List Char → Option (List Char × List Char)
  | [] => none
  | '"' :: rest => some ([], rest)
  | '\\' :: c :: rest => (literal rest).map fun (text, after) => (unescape c :: text, after)
  | c :: rest => (literal rest).map fun (text, after) => (c :: text, after)

/-- Whether a character continues a word. -/
def isWordChar (c : Char) : Bool := !Text.isBlank c && c != ';'

/-- A literal that closes leaves fewer characters than it was given. -/
theorem length_literal_lt {cs text after : List Char} (h : literal cs = some (text, after)) :
    after.length < cs.length := by
  fun_induction literal cs generalizing text with
  | case1 => cases h
  | case2 rest => cases h; simp
  | case3 c rest ih =>
    obtain ⟨⟨t, a⟩, ht, he⟩ := Option.map_eq_some_iff.1 h
    cases he
    have := ih ht
    simp only [List.length_cons]
    omega
  | case4 c rest _ _ ih =>
    obtain ⟨⟨t, a⟩, ht, he⟩ := Option.map_eq_some_iff.1 h
    cases he
    have := ih ht
    simp only [List.length_cons]
    omega

/-- The tokens of a line, or `none` if a literal in it does not close. -/
def scan : List Char → Option (List Token)
  | [] => some []
  | c :: rest =>
    if Text.isBlank c then scan rest
    else if c = ';' then some []
    else if c = '"' then
      match _found : literal rest with
      | none => none
      | some (text, after) => (scan after).map (.quoted (String.ofList text) :: ·)
    else
      (scan (rest.dropWhile isWordChar)).map
        (.word (String.ofList (c :: rest.takeWhile isWordChar)) :: ·)
termination_by cs => cs.length
decreasing_by
  · simp
  · have := length_literal_lt (by assumption)
    simp only [List.length_cons]
    omega
  · have := (List.dropWhile_sublist isWordChar (l := rest)).length_le
    simp only [List.length_cons]
    omega

/-- The label that a word defines: the word without its final colon. -/
def labelName? (text : String) : Option String :=
  if text.toList.getLast? = some ':' then some (String.ofList text.toList.dropLast) else none

/-- The labels that a line starts with, and the tokens after them. -/
def leadingLabels : List Token → List String × List Token
  | .word text :: rest =>
    match labelName? text with
    | some name =>
      let (names, body) := leadingLabels rest
      (name :: names, body)
    | none => ([], .word text :: rest)
  | tokens => ([], tokens)

end Token

end ObjectMachine
