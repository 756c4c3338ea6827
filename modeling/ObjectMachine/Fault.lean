/-
  ObjectMachine/Fault.lean
  ========================
  **Faults** — conditions that stop the whole machine, as opposed to the errors
  that an operation reports and its caller may survive.

  A fault is a value like any other error, so that "this never faults" is a
  statement about results.
-/

namespace ObjectMachine

/-- Why the machine itself stopped. -/
inductive Fault where
  /-- A buffer was indexed outside its bounds. -/
  | outOfBuffer
  /-- A computation left the range of its integers. -/
  | overflow
  /-- A semi-space was asked to put its allocation cursor outside itself. -/
  | cursorOutside
  deriving DecidableEq, Repr

/-- One past the largest word. -/
def wordLimit : Nat := 0x100000000

/-- One past the largest size that fits the host's 64-bit integers. -/
def sizeLimit : Nat := 0x10000000000000000

end ObjectMachine
