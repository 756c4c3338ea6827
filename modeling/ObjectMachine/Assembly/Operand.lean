/-
  ObjectMachine/Assembly/Operand.lean
  ===================================
  **Operands** — the five forms that a token after a mnemonic can take.
-/
import ObjectMachine.Assembly.Numeral
import ObjectMachine.Assembly.Token

namespace ObjectMachine

/-- An operand as written. -/
inductive Operand where
  /-- A literal word. -/
  | word (value : Word)
  /-- A string constant, written in quotes. -/
  | text (value : String)
  /-- An integer constant, written after `#`. -/
  | number (value : Word)
  /-- A jump target, written after `@`. -/
  | label (name : String)
  /-- A name for the host to resolve. -/
  | name (name : String)
  deriving DecidableEq, Repr

namespace Operand

/-- Whether a character may start an identifier. -/
def isIdentifierStart (c : Char) : Bool := c.isAlpha || c == '_'

/-- Whether a character may stand inside an identifier. -/
def isIdentifierChar (c : Char) : Bool := c.isAlphanum || c == '_' || c == '-' || c == '.'

/-- Whether characters form an identifier. -/
def isIdentifier : List Char → Bool
  | [] => false
  | c :: cs => isIdentifierStart c && cs.all isIdentifierChar

/-- Reads the operand that a word stands for, if it has one of the forms. -/
def ofWord? (word : String) : Except Fault (Option Operand) :=
  match word.toList with
  | '#' :: cs => do return (← Numeral.read cs).map .number
  | '@' :: cs => .ok (if isIdentifier cs then some (.label (String.ofList cs)) else none)
  | cs => do
    match ← Numeral.read cs with
    | some value => return some (.word value)
    | none => return if isIdentifier cs then some (.name word) else none

end Operand

end ObjectMachine
