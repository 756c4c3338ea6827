/-
  ObjectMachine/Address.lean
  ==========================
  **Addresses** — heap references and code addresses, and how they are shown.

  Both are words with a meaning.  A `Ref` is an offset into the heap buffer, or
  the reserved word `Ref.null`; it may go stale when the collector moves the
  object it names.  A `CodeAddress` is an offset into the code arena.
-/
import ObjectMachine.Bytes
import ObjectMachine.Text.Digits

namespace ObjectMachine

/-- A heap address. -/
structure Ref where
  word : Word
  deriving DecidableEq, Repr, Inhabited

namespace Ref

/-- The reference to nothing: the largest word. -/
def null : Ref := ⟨0xFFFFFFFF⟩

/-- Whether a reference is `null`. -/
def isNull (r : Ref) : Bool := r.word == 0xFFFFFFFF

@[simp] theorem isNull_iff (r : Ref) : r.isNull = true ↔ r = null := by
  cases r with
  | mk w => simp [isNull, null]

@[simp] theorem isNull_eq_false_iff (r : Ref) : r.isNull = false ↔ r ≠ null := by
  rw [← Bool.not_eq_true, isNull_iff]

/-- The reference, unless it is `null`. -/
def nonNull? (r : Ref) : Option Ref := if r.isNull then none else some r

/-- The buffer offset `bytes` past the address. -/
def offset (r : Ref) (bytes : Nat) : Nat := r.word.toNat + bytes

/-- The reference to a buffer offset. -/
def ofOffset (n : Nat) : Ref := ⟨UInt32.ofNat n⟩

/-- How messages show a reference. -/
def text (r : Ref) : String :=
  if r.isNull then "NULL" else "@" ++ Nat.repr r.word.toNat

/-- How diagnostics show a reference: in hexadecimal, under its type's name. -/
def debugText (r : Ref) : String :=
  if r.isNull then "HeapPointer(NULL)"
  else "HeapPointer(0x" ++ Digits.hex 4 r.word.toNat ++ ")"

end Ref

/-- An address in the code arena: a program counter or a method's entry. -/
structure CodeAddress where
  word : Word
  deriving DecidableEq, Repr, Inhabited

namespace CodeAddress

/-- The address `delta` bytes on, or back where `delta` is negative as a signed
    word.  Addresses wrap around. -/
def advance (a : CodeAddress) (delta : Word) : CodeAddress := ⟨a.word + delta⟩

/-- The code address of an offset into the arena. -/
def ofOffset (n : Nat) : CodeAddress := ⟨UInt32.ofNat n⟩

/-- How messages show a code address: eight hexadecimal digits. -/
def text (a : CodeAddress) : String := Digits.hexUpper 8 a.word.toNat

/-- How diagnostics show a code address. -/
def debugText (a : CodeAddress) : String :=
  "CodePointer(0x" ++ Digits.hex 4 a.word.toNat ++ ")"

end CodeAddress

end ObjectMachine
