/-
  ObjectMachine/Instruction/Decoder.lean
  ======================================
  **Encoding and decoding** — instructions as bytes.

  `encode` writes the opcode byte and the operand words.  A `Decoder` walks a byte
  string: `next?` decodes one instruction and says where it stopped, `items` all of
  them up to the first that is malformed.
-/
import ObjectMachine.Instruction.Basic

namespace ObjectMachine

/-- The bytes of an instruction. -/
def Instruction.encode (i : Instruction) : List UInt8 :=
  i.opcode.byte :: i.operands.flatMap Word.bytes

/-- The bytes of a list of instructions. -/
def Instruction.encodeAll (is : List Instruction) : List UInt8 := is.flatMap encode

/-- Why bytes are not an instruction. -/
inductive DecodeError where
  /-- The byte at this offset is no opcode. -/
  | unknownOpcode (byte : UInt8) (start : Nat)
  /-- The instruction at this offset has too few operand bytes. -/
  | truncated (op : Opcode) (start : Nat)
  deriving DecidableEq, Repr

/-- The text of a decoding error. -/
def DecodeError.message : DecodeError → String
  | .unknownOpcode byte start =>
    "unknown opcode 0x" ++ Digits.hexUpper 2 byte.toNat ++ " at offset " ++ Nat.repr start
  | .truncated op start =>
    "`" ++ op.mnemonic ++ "` at offset " ++ Nat.repr start ++ " is missing operands"

/-- A position in a byte string: the bytes from there on, and the offset. -/
structure Decoder where
  rest : List UInt8
  offset : Nat
  deriving Repr

namespace Decoder

/-- The decoder at the start of a byte string. -/
def ofBytes (code : List UInt8) : Decoder := ⟨code, 0⟩

/-- Whether no byte is left. -/
def isAtEnd (d : Decoder) : Bool := d.rest.isEmpty

/-- Takes one operand word of the instruction that started at `start`. -/
def operand (op : Opcode) (start : Nat) : EStateM DecodeError Decoder Word := fun d =>
  match Word.ofList? d.rest with
  | some w => .ok w ⟨d.rest.drop 4, d.offset + 4⟩
  | none => .error (.truncated op start) d

/-- Decodes one instruction, or nothing at the end.  An unknown opcode is not
    consumed; of a truncated instruction the opcode and the whole operand words are. -/
def next? (d : Decoder) : Option (Except DecodeError Instruction × Decoder) :=
  match d.rest with
  | [] => none
  | x :: rest =>
    match Opcode.ofByte? x with
    | none => some (.error (.unknownOpcode x d.offset), d)
    | some op =>
      match Instruction.read op (operand op d.offset) ⟨rest, d.offset + 1⟩ with
      | .ok i after => some (.ok i, after)
      | .error e after => some (.error e, after)

/-- Drawing operands never gives bytes back. -/
theorem length_rest_read_le {op : Opcode} {o : Opcode} {start : Nat} {d d' : Decoder}
    {i : Instruction} (h : Instruction.read op (operand o start) d = .ok i d') :
    d'.rest.length ≤ d.rest.length := by
  have one : ∀ {d d' : Decoder} {w : Word}, operand o start d = .ok w d' →
      d'.rest.length ≤ d.rest.length := by
    intro d d' w h
    unfold operand at h
    split at h
    · cases h
      simp
    · cases h
  have single : ∀ {f : Word → Instruction} {d d' : Decoder} {i : Instruction},
      (do return f (← operand o start) : EStateM DecodeError Decoder Instruction) d = .ok i d' →
      d'.rest.length ≤ d.rest.length := by
    intro f d d' i h
    simp only [bind, EStateM.bind, pure, EStateM.pure] at h
    split at h
    · cases h
      exact one (by assumption)
    · cases h
  cases op
  case storeArg =>
    simp only [Instruction.read, bind, EStateM.bind, pure, EStateM.pure] at h
    split at h
    · split at h
      · cases h
        exact Nat.le_trans (one (by assumption)) (one (by assumption))
      · cases h
    · cases h
  all_goals
    first
    | exact single h
    | (simp only [Instruction.read, pure, EStateM.pure] at h
       cases h
       exact Nat.le_refl _)

/-- A decoded instruction has consumed at least its opcode. -/
theorem length_rest_lt {d d' : Decoder} {i : Instruction} (h : d.next? = some (.ok i, d')) :
    d'.rest.length < d.rest.length := by
  unfold next? at h
  split at h
  · cases h
  · rename_i x rest hd
    split at h
    · cases h
    · split at h
      · cases h
        rw [hd]
        exact Nat.lt_succ_of_le (length_rest_read_le (by assumption))
      · cases h

/-- All instructions up to the end or to the first malformed one, whose error comes
    last. -/
def items (d : Decoder) : List (Except DecodeError Instruction) :=
  match _found : d.next? with
  | none => []
  | some (.error e, _) => [.error e]
  | some (.ok i, after) => .ok i :: after.items
termination_by d.rest.length
decreasing_by exact length_rest_lt (by assumption)

/-- All instructions with their offsets, if none is malformed. -/
def located (d : Decoder) : Except DecodeError (List (Nat × Instruction)) :=
  match _found : d.next? with
  | none => .ok []
  | some (.error e, _) => .error e
  | some (.ok i, after) => after.located.map ((d.offset, i) :: ·)
termination_by d.rest.length
decreasing_by exact length_rest_lt (by assumption)

end Decoder

/-- One line for each instruction, numbered from `base`: the offset in at least six
    digits, then the instruction. -/
def listing (base : Nat) (code : List UInt8) : Except DecodeError String :=
  (Decoder.ofBytes code).located.map fun items =>
    String.join (items.map fun item =>
      Digits.padded 6 (base + item.1) ++ ": " ++ item.2.text ++ "\n")

end ObjectMachine
