/-
  ObjectMachine/Memory/Settings.lean
  ==================================
  **Arena sizes** — chosen once, and checked so that every offset fits a word and none
  is the word that stands for "nothing".
-/
import ObjectMachine.Memory.Error

namespace ObjectMachine

/-- Bytes at the bottom of the heap buffer that are never handed out, so that small
    integers on the stack are no addresses. -/
def addressGuard : Nat := 4096

/-- Sizes of the arenas in bytes; the heap is split into two halves. -/
structure Settings where
  heapSize : Nat := 64 * 1024
  stackSize : Nat := 16 * 1024
  codeSize : Nat := 64 * 1024
  deriving DecidableEq, Repr

/-- Whether the sizes can be used; of several objections the first is reported. -/
def Settings.validate (s : Settings) : Except MemoryError Unit :=
  let limit := wordLimit - 1
  if s.heapSize = 0 ∨ s.stackSize = 0 ∨ s.codeSize = 0 then .error (.invalidSettings .zeroSize)
  else if s.heapSize / 2 < 11 then .error (.invalidSettings .heapTooSmall)
  else if sizeLimit ≤ addressGuard + s.heapSize then .error (.fault .overflow)
  else if limit ≤ addressGuard + s.heapSize then .error (.invalidSettings .heapTooLarge)
  else if limit ≤ s.stackSize ∨ limit ≤ s.codeSize then .error (.invalidSettings .arenaTooLarge)
  else .ok ()

end ObjectMachine
