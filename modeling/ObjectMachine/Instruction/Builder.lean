/-
  ObjectMachine/Instruction/Builder.lean
  ======================================
  **Building code with late jump targets** — a jump may be emitted before its
  target is known and bound to it later.
-/
import ObjectMachine.Fault
import ObjectMachine.Instruction.Decoder

namespace ObjectMachine

/-- Code under construction. -/
structure Builder where
  code : Bytes := #[]
  deriving Repr

/-- A jump whose offset is still open: where its offset word stands, and where the
    jump ends. -/
structure Label where
  slot : Nat
  jumpEnd : Nat
  deriving DecidableEq, Repr

namespace Builder

/-- How many bytes have been emitted. -/
def offset (b : Builder) : Nat := b.code.size

/-- Appends bytes. -/
def append (b : Builder) (xs : List UInt8) : Builder := ⟨b.code.appendList xs⟩

/-- Appends an instruction. -/
def emit (b : Builder) (i : Instruction) : Builder := b.append i.encode

/-- Appends a jump with offset zero, and the label that can still set it. -/
def jump (b : Builder) (op : Opcode) : Builder × Label :=
  let b := b.append (op.byte :: Word.bytes 0)
  (b, ⟨b.offset - wordSize, b.offset⟩)

/-- Points a label at the current offset.  A label of other code may have no place here. -/
def bind (b : Builder) (label : Label) : Except Fault Builder :=
  match Word.difference? (UInt32.ofNat b.offset) (UInt32.ofNat label.jumpEnd) with
  | none => .error .overflow
  | some distance =>
    match b.code.write? label.slot distance.bytes with
    | some code => .ok ⟨code⟩
    | none => .error .outOfBuffer

/-- Appends a jump to a known offset. -/
def jumpTo (b : Builder) (op : Opcode) (target : Nat) : Except Fault Builder :=
  match Word.difference? (UInt32.ofNat target) (UInt32.ofNat (b.offset + op.encodedLength)) with
  | none => .error .overflow
  | some distance =>
    match Condition.ofOpcode? op with
    | some condition => .ok (b.emit (.branch condition distance))
    | none => .ok (b.emit (.jump distance))

end Builder

end ObjectMachine
