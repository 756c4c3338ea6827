/-
  ObjectMachine/Opcode.lean
  =========================
  **The opcode table** — 32 opcodes with their bytes, mnemonics and operand
  counts.

  An instruction is its opcode byte followed by `arity` words.  The bytes are
  dense: opcode number `n` is entry `n` of `Opcode.all`.
-/
import ObjectMachine.Bytes

namespace ObjectMachine

/-- What an instruction does; operands are listed in encoding order. -/
inductive Opcode where
  /-- Stops the run. -/
  | halt
  /-- Calls a host service: `id`. -/
  | syscall
  /-- Pops a receiver and sends it a message: constant index of the selector. -/
  | call
  /-- Drops the frame and goes on at its return address. -/
  | ret
  /-- Pops a value, drops the frame and pushes the value back. -/
  | retTop
  /-- Pushes a new instance: class index. -/
  | new
  /-- Pops a raw index and an object and pushes the field. -/
  | getField
  /-- Pops a value, a raw index and an object and stores the field. -/
  | setField
  /-- Pushes a raw address. -/
  | pushRef
  /-- Drops the top word. -/
  | popRef
  /-- Pushes a raw word. -/
  | pushInt
  /-- Drops the top word. -/
  | popInt
  /-- Pops the top word into a local slot: index. -/
  | storeLocal
  /-- Pushes a local slot: index. -/
  | loadLocal
  /-- Pops two Integers and pushes their sum. -/
  | addInt
  /-- Pops two Integers and pushes their difference. -/
  | subInt
  /-- Pops two Integers and pushes their product. -/
  | mulInt
  /-- Pops two Integers and pushes their quotient. -/
  | divInt
  /-- Pops two Integers and pushes their remainder. -/
  | modInt
  /-- Stores an address into an argument slot: index, address. -/
  | storeArg
  /-- Pushes an argument slot: index. -/
  | loadArg
  /-- Pops a byte-indexed object and overwrites its first word: value. -/
  | setBytes
  /-- Pushes a new Integer: value. -/
  | newInt
  /-- Pushes a new String: constant index. -/
  | newStr
  /-- Pushes a new Array: constant index of its length. -/
  | newArr
  /-- Jumps: offset from the end of the instruction. -/
  | jump
  /-- Pops two Integers and jumps if they are equal. -/
  | jumpEq
  /-- Pops two Integers and jumps if they differ. -/
  | jumpNe
  /-- Pops two Integers and jumps if the first pushed is greater. -/
  | jumpGt
  /-- Pops two Integers and jumps if the first pushed is not less. -/
  | jumpGe
  /-- Pops two Integers and jumps if the first pushed is less. -/
  | jumpLt
  /-- Pops two Integers and jumps if the first pushed is not greater. -/
  | jumpLe
  deriving DecidableEq, Repr

namespace Opcode

/-- Every opcode, in the order of its byte. -/
def all : Array Opcode := #[
  .halt, .syscall, .call, .ret, .retTop, .new, .getField, .setField, .pushRef, .popRef,
  .pushInt, .popInt, .storeLocal, .loadLocal, .addInt, .subInt, .mulInt, .divInt,
  .modInt, .storeArg, .loadArg, .setBytes, .newInt, .newStr, .newArr, .jump, .jumpEq,
  .jumpNe, .jumpGt, .jumpGe, .jumpLt, .jumpLe]

/-- The byte of an opcode. -/
def byte (op : Opcode) : UInt8 := UInt8.ofNat op.ctorIdx

/-- The opcode of a byte. -/
def ofByte? (x : UInt8) : Option Opcode := all[x.toNat]?

/-- The name of an opcode in assembly text. -/
def mnemonic : Opcode → String
  | .halt => "halt"
  | .syscall => "syscall"
  | .call => "call"
  | .ret => "return"
  | .retTop => "return-top"
  | .new => "new"
  | .getField => "get-field"
  | .setField => "set-field"
  | .pushRef => "push-ref"
  | .popRef => "pop-ref"
  | .pushInt => "push-int"
  | .popInt => "pop-int"
  | .storeLocal => "push-local"
  | .loadLocal => "pop-local"
  | .addInt => "add-int"
  | .subInt => "sub-int"
  | .mulInt => "mul-int"
  | .divInt => "div-int"
  | .modInt => "mod-int"
  | .storeArg => "push-arg"
  | .loadArg => "pop-arg"
  | .setBytes => "set-bytes"
  | .newInt => "new-int"
  | .newStr => "new-str"
  | .newArr => "new-arr"
  | .jump => "jmp"
  | .jumpEq => "jmp-eq-int"
  | .jumpNe => "jmp-neq-int"
  | .jumpGt => "jmp-gt-int"
  | .jumpGe => "jmp-ge-int"
  | .jumpLt => "jmp-lt-int"
  | .jumpLe => "jmp-le-int"

/-- The opcode with a given mnemonic. -/
def ofMnemonic? (name : String) : Option Opcode := all.find? fun op => op.mnemonic == name

/-- How many operand words follow the opcode byte. -/
def arity : Opcode → Nat
  | .halt | .ret | .retTop | .getField | .setField | .popRef | .popInt | .addInt | .subInt | .mulInt | .divInt | .modInt => 0
  | .storeArg => 2
  | _ => 1

/-- Length of the encoded instruction in bytes. -/
def encodedLength (op : Opcode) : Nat := 1 + op.arity * wordSize

/-- Whether the operand is a jump offset. -/
def isJump : Opcode → Bool
  | .jump | .jumpEq | .jumpNe | .jumpGt | .jumpGe | .jumpLt | .jumpLe => true
  | _ => false

/-- A byte is read as the opcode that it was written for. -/
theorem ofByte?_byte (op : Opcode) : ofByte? op.byte = some op := by
  cases op <;> rfl

/-- A byte that is read as an opcode is that opcode's byte. -/
theorem byte_of_ofByte? {x : UInt8} {op : Opcode} (h : ofByte? x = some op) : op.byte = x := by
  have inverse : ∀ n < 32, (all[n]?).map (fun op => op.byte.toNat) = some n := by decide
  have below : x.toNat < 32 := by
    have := (Array.getElem?_eq_some_iff.1 h).1
    simpa [all] using this
  have := inverse x.toNat below
  rw [ofByte?] at h
  rw [h] at this
  exact UInt8.toNat_inj.1 (by simpa using this)

/-- Exactly the bytes below 32 are opcodes. -/
theorem ofByte?_eq_none_iff (x : UInt8) : ofByte? x = none ↔ 32 ≤ x.toNat := by
  simp [ofByte?, all]

/-- Mnemonics name opcodes uniquely. -/
theorem ofMnemonic?_mnemonic (op : Opcode) : ofMnemonic? op.mnemonic = some op := by
  cases op <;> decide +kernel

end Opcode

end ObjectMachine
