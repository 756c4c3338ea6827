/-
  ObjectMachine/Assembly/Error.lean
  =================================
  **What can be wrong with a source text** — each error with the number of its
  line, counted from one.
-/
import ObjectMachine.Fault
import ObjectMachine.Opcode

namespace ObjectMachine

/-- Why a source text was not assembled. -/
inductive AssemblyError where
  /-- A line starts with something that is no mnemonic. -/
  | unknownMnemonic (line : Nat) (mnemonic : String)
  /-- An instruction has the wrong number of operands. -/
  | arity (line : Nat) (op : Opcode) (found : Nat)
  /-- An operand has none of the known forms. -/
  | badOperand (line : Nat) (operand : String)
  /-- A string literal does not end on its line. -/
  | unterminated (line : Nat)
  /-- A label is defined a second time. -/
  | duplicateLabel (line : Nat) (label : String)
  /-- A jump names a label that is never defined. -/
  | unknownLabel (line : Nat) (label : String)
  /-- The host does not know a name. -/
  | unresolved (line : Nat) (op : Opcode) (name : String)
  /-- A numeral or the way to a label left the range of the host's integers. -/
  | fault (cause : Fault)
  deriving DecidableEq, Repr

/-- The text of an assembly error. -/
def AssemblyError.message : AssemblyError → String
  | .unknownMnemonic line mnemonic => onLine line ++ "unknown mnemonic `" ++ mnemonic ++ "`"
  | .arity line op found =>
    onLine line ++ "`" ++ op.mnemonic ++ "` takes " ++ Nat.repr op.arity ++
      " operand(s), found " ++ Nat.repr found
  | .badOperand line operand => onLine line ++ "invalid operand `" ++ operand ++ "`"
  | .unterminated line => onLine line ++ "unterminated string literal"
  | .duplicateLabel line label => onLine line ++ "label `" ++ label ++ "` defined twice"
  | .unknownLabel line label => onLine line ++ "unknown label `" ++ label ++ "`"
  | .unresolved line op name =>
    onLine line ++ "cannot resolve `" ++ name ++ "` for `" ++ op.mnemonic ++ "`"
  | .fault _ => "arithmetic overflow"
where
  /-- How a message names a line. -/
  onLine (line : Nat) : String := "line " ++ Nat.repr line ++ ": "

end ObjectMachine
