/-
  ObjectMachine/Assembly/Layout.lean
  ==================================
  **The layout of a source text** — its instructions in order and the offsets of
  its labels.

  Laying out needs nothing from the host, so every error of form is found here,
  before the first operand is resolved.
-/
import ObjectMachine.Assembly.Error
import ObjectMachine.Assembly.Operand

namespace ObjectMachine

/-- An instruction as written, with the number of its line. -/
structure SourceLine where
  number : Nat
  op : Opcode
  operands : List Operand
  deriving DecidableEq, Repr

/-- A source text laid out: its instructions, the offsets of its labels, and the
    length of its code. -/
structure Layout where
  lines : Array SourceLine := #[]
  labels : List (String × Nat) := []
  length : Nat := 0
  deriving Repr

namespace Layout

/-- Offset of a label. -/
def label? (l : Layout) (name : String) : Option Nat := l.labels.lookup name

/-- Defines a label at the end of the code so far. -/
def define (number : Nat) (l : Layout) (name : String) : Except AssemblyError Layout :=
  match l.label? name with
  | some _ => .error (.duplicateLabel number name)
  | none => .ok { l with labels := (name, l.length) :: l.labels }

/-- Reads one operand. -/
def operand (number : Nat) : Token → Except AssemblyError Operand
  | .quoted text => .ok (.text text)
  | .word word =>
    match Operand.ofWord? word with
    | .ok (some operand) => .ok operand
    | .ok none => .error (.badOperand number word)
    | .error cause => .error (.fault cause)

/-- Reads the opcode that a line starts with. -/
def opcode (number : Nat) : Token → Except AssemblyError Opcode
  | .quoted text => .error (.unknownMnemonic number ("\"" ++ text ++ "\""))
  | .word word =>
    match Opcode.ofMnemonic? word with
    | some op => .ok op
    | none => .error (.unknownMnemonic number word)

/-- Reads an instruction: its mnemonic, its operands from left to right, and only
    then their count. -/
def sourceLine (number : Nat) (head : Token) (tail : List Token) :
    Except AssemblyError SourceLine := do
  let op ← opcode number head
  let operands ← tail.mapM (operand number)
  if operands.length = op.arity then return ⟨number, op, operands⟩
  else throw (.arity number op operands.length)

/-- Adds an instruction at the end. -/
def push (l : Layout) (line : SourceLine) : Layout :=
  { l with lines := l.lines.push line, length := l.length + line.op.encodedLength }

/-- Adds a line of text: first its labels, then its instruction if it has one. -/
def addLine (l : Layout) (number : Nat) (text : List Char) : Except AssemblyError Layout := do
  let some tokens := Token.scan text | throw (.unterminated number)
  let (names, body) := Token.leadingLabels tokens
  let l ← names.foldlM (define number) l
  match body with
  | [] => return l
  | head :: tail => return l.push (← sourceLine number head tail)

/-- Lays out numbered lines after what has been laid out already. -/
def addLines (l : Layout) (number : Nat) : List (List Char) → Except AssemblyError Layout
  | [] => .ok l
  | text :: rest => do
    let l ← l.addLine number text
    l.addLines (number + 1) rest

/-- Lays out a source text. -/
def ofSource (source : String) : Except AssemblyError Layout :=
  addLines {} 1 (Text.lines source.toList)

end Layout

end ObjectMachine
