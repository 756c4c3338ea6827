/-
  ObjectMachine/Instruction/Basic.lean
  ====================================
  **Instructions** — opcodes together with their operand words.

  `Instruction.read` builds an instruction by drawing its operands, in encoding
  order, from any source of words; `opcode` and `operands` take it apart again.
-/
import ObjectMachine.Condition
import ObjectMachine.Text.Digits

namespace ObjectMachine

/-- An instruction with its operands.  The six conditional jumps are one
    constructor with a condition. -/
inductive Instruction where
  | halt
  | syscall (id : Word)
  | call (selector : Word)
  | ret
  | retTop
  | new (index : Word)
  | getField
  | setField
  | pushRef (address : Word)
  | popRef
  | pushInt (value : Word)
  | popInt
  | storeLocal (index : Word)
  | loadLocal (index : Word)
  | addInt
  | subInt
  | mulInt
  | divInt
  | modInt
  | storeArg (index address : Word)
  | loadArg (index : Word)
  | setBytes (value : Word)
  | newInt (value : Word)
  | newStr (text : Word)
  | newArr (length : Word)
  | jump (offset : Word)
  | branch (condition : Condition) (offset : Word)
  deriving DecidableEq, Repr

namespace Instruction

/-- Builds the instruction of an opcode, drawing each operand from `next`. -/
@[inline] def read {m : Type → Type} [Monad m] (op : Opcode) (next : m Word) :
    m Instruction :=
  match op with
  | .halt => pure .halt
  | .syscall => do return .syscall (← next)
  | .call => do return .call (← next)
  | .ret => pure .ret
  | .retTop => pure .retTop
  | .new => do return .new (← next)
  | .getField => pure .getField
  | .setField => pure .setField
  | .pushRef => do return .pushRef (← next)
  | .popRef => pure .popRef
  | .pushInt => do return .pushInt (← next)
  | .popInt => pure .popInt
  | .storeLocal => do return .storeLocal (← next)
  | .loadLocal => do return .loadLocal (← next)
  | .addInt => pure .addInt
  | .subInt => pure .subInt
  | .mulInt => pure .mulInt
  | .divInt => pure .divInt
  | .modInt => pure .modInt
  | .storeArg => do
    let index ← next
    let address ← next
    return .storeArg index address
  | .loadArg => do return .loadArg (← next)
  | .setBytes => do return .setBytes (← next)
  | .newInt => do return .newInt (← next)
  | .newStr => do return .newStr (← next)
  | .newArr => do return .newArr (← next)
  | .jump => do return .jump (← next)
  | .jumpEq => do return .branch .eq (← next)
  | .jumpNe => do return .branch .ne (← next)
  | .jumpGt => do return .branch .gt (← next)
  | .jumpGe => do return .branch .ge (← next)
  | .jumpLt => do return .branch .lt (← next)
  | .jumpLe => do return .branch .le (← next)

/-- The opcode of an instruction. -/
def opcode : Instruction → Opcode
  | .halt => .halt
  | .syscall _ => .syscall
  | .call _ => .call
  | .ret => .ret
  | .retTop => .retTop
  | .new _ => .new
  | .getField => .getField
  | .setField => .setField
  | .pushRef _ => .pushRef
  | .popRef => .popRef
  | .pushInt _ => .pushInt
  | .popInt => .popInt
  | .storeLocal _ => .storeLocal
  | .loadLocal _ => .loadLocal
  | .addInt => .addInt
  | .subInt => .subInt
  | .mulInt => .mulInt
  | .divInt => .divInt
  | .modInt => .modInt
  | .storeArg _ _ => .storeArg
  | .loadArg _ => .loadArg
  | .setBytes _ => .setBytes
  | .newInt _ => .newInt
  | .newStr _ => .newStr
  | .newArr _ => .newArr
  | .jump _ => .jump
  | .branch condition _ => condition.opcode

/-- The operand words of an instruction, in encoding order. -/
def operands : Instruction → List Word
  | .syscall id => [id]
  | .call selector => [selector]
  | .new index => [index]
  | .pushRef address => [address]
  | .pushInt value => [value]
  | .storeLocal index => [index]
  | .loadLocal index => [index]
  | .storeArg index address => [index, address]
  | .loadArg index => [index]
  | .setBytes value => [value]
  | .newInt value => [value]
  | .newStr text => [text]
  | .newArr length => [length]
  | .jump offset => [offset]
  | .branch _ offset => [offset]
  | _ => []

@[simp] theorem length_operands (i : Instruction) : i.operands.length = i.opcode.arity := by
  cases i with
  | branch condition offset => cases condition <;> rfl
  | _ => rfl

/-- An instruction as assembly-like text: constant indices follow `#`, addresses
    follow `@`, class indices follow `class#`, and jump offsets carry a sign. -/
def text (i : Instruction) : String :=
  let name := i.opcode.mnemonic
  match i with
  | .call selector => name ++ " #" ++ Nat.repr selector.toNat
  | .new index => name ++ " class#" ++ Nat.repr index.toNat
  | .pushRef address => name ++ " @" ++ Nat.repr address.toNat
  | .storeArg index address =>
    name ++ " " ++ Nat.repr index.toNat ++ " @" ++ Nat.repr address.toNat
  | .newStr text => name ++ " #" ++ Nat.repr text.toNat
  | .newArr length => name ++ " #" ++ Nat.repr length.toNat
  | .jump offset | .branch _ offset => name ++ " " ++ Digits.withSign offset.signed
  | _ => i.operands.foldl (fun line w => line ++ " " ++ Digits.signed w.signed) name

/-- The instruction of an opcode and a list of words, of which it takes as many
    as it needs. -/
def ofWords? (op : Opcode) (words : List Word) : Option Instruction :=
  (read (m := StateT (List Word) Option) op fun ws =>
    match ws with
    | [] => none
    | w :: rest => some (w, rest)).run' words

end Instruction

end ObjectMachine
