/-
  ObjectMachine/Memory/CodeArena.lean
  ===================================
  **The code arena** — append-only storage for code, up to a limit.
-/
import ObjectMachine.Memory.Error

namespace ObjectMachine

/-- Stored code and the largest size it may reach. -/
structure CodeArena where
  bytes : Bytes := #[]
  limit : Nat

namespace CodeArena

/-- Appends code and says where it starts. -/
def store (code : List UInt8) : EStateM MemoryError CodeArena CodeAddress := fun arena =>
  let available := arena.limit - arena.bytes.size
  if available < code.length then .error (.codeOverflow code.length available) arena
  else
    .ok (CodeAddress.ofOffset arena.bytes.size) { arena with bytes := arena.bytes.appendList code }

/-- The byte at an address. -/
def byteAt (arena : CodeArena) (pc : CodeAddress) : Except MemoryError UInt8 :=
  match arena.bytes[pc.word.toNat]? with
  | some x => .ok x
  | none => .error (.pcOutOfBounds pc)

/-- The word at an address. -/
def wordAt (arena : CodeArena) (pc : CodeAddress) : Except MemoryError Word :=
  match arena.bytes.word? pc.word.toNat with
  | some w => .ok w
  | none => .error (.pcOutOfBounds pc)

end CodeArena

end ObjectMachine
