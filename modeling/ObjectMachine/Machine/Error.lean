/-
  ObjectMachine/Machine/Error.lean
  ================================
  **What ends a program** — the errors of the machine, those of its parts included.
-/
import ObjectMachine.Assembly.Error
import ObjectMachine.Host.Error
import ObjectMachine.Instruction.Decoder
import ObjectMachine.Memory.Error
import ObjectMachine.Text.Quoted

namespace ObjectMachine

/-- What an operation needed and did not find. -/
inductive Expected where
  | classObject
  | integer
  | string
  | array
  deriving DecidableEq, Repr

/-- How a message names what was expected. -/
def Expected.phrase : Expected → String
  | .classObject => "a class"
  | .integer => "an Integer"
  | .string => "a String"
  | .array => "an Array"

/-- What kind of constant an instruction needed. -/
inductive ExpectedConstant where
  | text
  | number
  deriving DecidableEq, Repr

/-- How a message names the expected kind of constant. -/
def ExpectedConstant.phrase : ExpectedConstant → String
  | .text => "a string"
  | .number => "an integer"

/-- Why the machine could not go on. -/
inductive MachineError where
  | memory (cause : MemoryError)
  | decode (cause : DecodeError)
  | assembly (cause : AssemblyError)
  | unknownOpcode (byte : UInt8) (pc : CodeAddress)
  | methodNotFound (selector className : String)
  | divisionByZero
  | fieldOutOfBounds (object : Ref) (index : Word)
  | typeMismatch (expected : Expected) (object : Ref)
  | negativeLength (length : Word)
  | constantKind (index : Word) (expected : ExpectedConstant)
  | unknownService (id : Word)
  | unknownFileHandle (handle : Word)
  | host (cause : HostError)
  deriving Repr

/-- The text of a machine error. -/
def MachineError.message : MachineError → String
  | .memory cause => cause.message
  | .decode cause => cause.message
  | .assembly cause => cause.message
  | .unknownOpcode byte pc =>
    "unknown opcode 0x" ++ Digits.hexUpper 2 byte.toNat ++ " at " ++ pc.text
  | .methodNotFound selector className =>
    "method " ++ Text.quote selector ++ " not found in class " ++ className
  | .divisionByZero => "division by zero"
  | .fieldOutOfBounds object index =>
    "field " ++ Digits.signed index.signed ++ " is out of bounds for " ++ object.text
  | .typeMismatch expected object => "expected " ++ expected.phrase ++ " at " ++ object.text
  | .negativeLength length => "negative array length " ++ Digits.signed length.signed
  | .constantKind index expected =>
    "constant #" ++ Nat.repr index.toNat ++ " is not " ++ expected.phrase
  | .unknownService id => "unknown syscall " ++ Digits.signed id.signed
  | .unknownFileHandle handle => "unknown file handle " ++ Digits.signed handle.signed
  | .host cause => "i/o error: " ++ cause.message

end ObjectMachine
