/-
  ObjectMachine/Condition.lean
  ============================
  **Conditions of jumps** — the six comparisons of signed words and the jump
  opcode of each.
-/
import ObjectMachine.Opcode

namespace ObjectMachine

/-- A comparison of two words, applied as `left condition right`. -/
inductive Condition where
  | eq
  | ne
  | gt
  | ge
  | lt
  | le
  deriving DecidableEq, Repr

namespace Condition

/-- The conditional jump that tests a condition. -/
def opcode : Condition → Opcode
  | .eq => .jumpEq
  | .ne => .jumpNe
  | .gt => .jumpGt
  | .ge => .jumpGe
  | .lt => .jumpLt
  | .le => .jumpLe

/-- The condition that a conditional jump tests. -/
def ofOpcode? : Opcode → Option Condition
  | .jumpEq => some .eq
  | .jumpNe => some .ne
  | .jumpGt => some .gt
  | .jumpGe => some .ge
  | .jumpLt => some .lt
  | .jumpLe => some .le
  | _ => none

theorem ofOpcode?_opcode (c : Condition) : ofOpcode? c.opcode = some c := by
  cases c <;> rfl

/-- Whether a condition holds of two words, compared as signed integers. -/
def holds (c : Condition) (left right : Word) : Bool :=
  match c with
  | .eq => left == right
  | .ne => left != right
  | .gt => right.toInt32 < left.toInt32
  | .ge => right.toInt32 ≤ left.toInt32
  | .lt => left.toInt32 < right.toInt32
  | .le => left.toInt32 ≤ right.toInt32

end Condition

end ObjectMachine
