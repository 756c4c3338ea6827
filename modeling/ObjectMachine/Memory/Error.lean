/-
  ObjectMachine/Memory/Error.lean
  ===============================
  **What the memory refuses** — one constructor for each cause.
-/
import ObjectMachine.Address
import ObjectMachine.Fault

namespace ObjectMachine

/-- What is wrong with a choice of arena sizes. -/
inductive SettingsError where
  | zeroSize
  | heapTooSmall
  | heapTooLarge
  | arenaTooLarge
  deriving DecidableEq, Repr

/-- The text of a settings error. -/
def SettingsError.message : SettingsError → String
  | .zeroSize => "sizes must be > 0"
  | .heapTooSmall => "heap_size must fit one object header per semi-space"
  | .heapTooLarge => "heap_size exceeds the 32-bit address range"
  | .arenaTooLarge => "stack_size and code_size must be addressable with 32 bits"

/-- Why a memory operation failed. -/
inductive MemoryError where
  /-- No room on the heap, even after a collection. -/
  | outOfMemory (requested available : Nat)
  /-- No room in the code arena. -/
  | codeOverflow (requested available : Nat)
  | stackOverflow
  | stackUnderflow
  /-- A frame's link does not lead to an earlier frame. -/
  | corruptFrame (base : Word)
  | nullDereference
  | invalidObject (addr : Ref)
  | pcOutOfBounds (pc : CodeAddress)
  | constantOutOfRange (index : Word)
  | methodOutOfRange (index : Word)
  | classOutOfRange (index : Word)
  | invalidSettings (reason : SettingsError)
  /-- The machine itself stopped. -/
  | fault (cause : Fault)
  deriving DecidableEq, Repr

/-- The text of a memory error. -/
def MemoryError.message : MemoryError → String
  | .outOfMemory requested available =>
    "out of memory: requested " ++ Nat.repr requested ++ " bytes, " ++ Nat.repr available ++
      " available after collection"
  | .codeOverflow requested available =>
    "code arena overflow: requested " ++ Nat.repr requested ++ " bytes, " ++ Nat.repr available ++
      " available"
  | .stackOverflow => "stack overflow"
  | .stackUnderflow => "stack underflow"
  | .corruptFrame base =>
    "frame at stack offset " ++ Nat.repr base.toNat ++ " has a broken caller link"
  | .nullDereference => "dereferenced NULL"
  | .invalidObject addr => "no valid object at " ++ addr.text
  | .pcOutOfBounds pc => "program counter " ++ pc.text ++ " outside the code arena"
  | .constantOutOfRange index => "constant index " ++ Nat.repr index.toNat ++ " out of range"
  | .methodOutOfRange index => "method index " ++ Nat.repr index.toNat ++ " out of range"
  | .classOutOfRange index => "class index " ++ Nat.repr index.toNat ++ " out of range"
  | .invalidSettings reason => "invalid memory settings: " ++ reason.message
  | .fault _ => "machine fault"

end ObjectMachine
