/-
  ObjectMachine/Assembly/Resolver.lean
  ====================================
  **From a layout to code** — operands become words, with the host's help.

  A `Resolver` is what the assembler needs to know from its host; it may keep a
  state, for instance a pool of constants.  Operands are resolved in source order,
  and what the host did before an error stays done.
-/
import ObjectMachine.Assembly.Layout
import ObjectMachine.Instruction.Decoder

namespace ObjectMachine

/-- The host's part in assembling. -/
structure Resolver (σ : Type) where
  /-- Index of a string constant. -/
  text : String → StateM σ Word
  /-- Index of an integer constant. -/
  number : Word → StateM σ Word
  /-- Word of a name used as an operand of an opcode. -/
  name : Opcode → String → StateM σ (Option Word)

namespace Resolver

variable {σ : Type}

/-- Assembling over a host state: the state is kept when an error ends it. -/
abbrev Run (σ : Type) := ExceptT AssemblyError (StateM σ)

/-- The word of an operand of the instruction that ends at `stop`. -/
def word (r : Resolver σ) (layout : Layout) (line : SourceLine) (stop : Nat) :
    Operand → Run σ Word
  | .word value => pure value
  | .text value => r.text value
  | .number value => r.number value
  | .label name =>
    match layout.label? name with
    | some target =>
      match Word.difference? (UInt32.ofNat target) (UInt32.ofNat stop) with
      | some distance => pure distance
      | none => throw (.fault .overflow)
    | none => throw (.unknownLabel line.number name)
  | .name name => do
    match ← r.name line.op name with
    | some value => pure value
    | none => throw (.unresolved line.number line.op name)

/-- The instruction of a line that ends at `stop`. -/
def instruction (r : Resolver σ) (layout : Layout) (line : SourceLine) (stop : Nat) :
    Run σ Instruction := do
  let words ← line.operands.mapM (r.word layout line stop)
  match Instruction.ofWords? line.op words with
  | some i => return i
  | none => throw (.arity line.number line.op words.length)

/-- The instructions of lines that start at `start`. -/
def instructions (r : Resolver σ) (layout : Layout) (start : Nat) :
    List SourceLine → Run σ (List Instruction)
  | [] => return []
  | line :: rest => do
    let stop := start + line.op.encodedLength
    let i ← r.instruction layout line stop
    return i :: (← r.instructions layout stop rest)

end Resolver

/-- Assembles a source text. -/
def assemble {σ : Type} (r : Resolver σ) (source : String) : Resolver.Run σ (List UInt8) := do
  match Layout.ofSource source with
  | .error e => throw e
  | .ok layout => return Instruction.encodeAll (← r.instructions layout 0 layout.lines.toList)

/-- Assembles a body given as one line of text for each entry. -/
def assembleLines {σ : Type} (r : Resolver σ) (lines : List String) :
    Resolver.Run σ (List UInt8) :=
  assemble r ("\n".intercalate lines)

end ObjectMachine
