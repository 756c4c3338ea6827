/-
  ObjectMachine/Memory/Constants.lean
  ===================================
  **The constant pool** — literals by index, each kept once.
-/
import ObjectMachine.Memory.Error
import ObjectMachine.Text.Quoted

namespace ObjectMachine

/-- A literal. -/
inductive Constant where
  | text (value : String)
  | number (value : Word)
  deriving DecidableEq, Repr

/-- How a constant is shown: text in quotes, numbers as signed. -/
def Constant.display : Constant → String
  | .text value => Text.quote value
  | .number value => Digits.signed value.signed

/-- The literals in the order in which they were first added. -/
structure ConstantPool where
  entries : Array Constant := #[]

namespace ConstantPool

/-- The index of a constant, which is added unless it is there. -/
def add (c : Constant) (pool : ConstantPool) : Word × ConstantPool :=
  match pool.entries.findIdx? (· == c) with
  | some index => (UInt32.ofNat index, pool)
  | none => (UInt32.ofNat pool.entries.size, ⟨pool.entries.push c⟩)

/-- The constant at an index. -/
def get (pool : ConstantPool) (index : Word) : Except MemoryError Constant :=
  match pool.entries[index.toNat]? with
  | some c => .ok c
  | none => .error (.constantOutOfRange index)

end ConstantPool

end ObjectMachine
