/-
  ObjectMachine/Memory/SemiSpaces.lean
  ====================================
  **The heap** — a buffer with a guard at the bottom and two halves above it, of which
  one is active and receives allocations.
-/
import ObjectMachine.Memory.Settings

namespace ObjectMachine

/-- One of the two halves of the heap. -/
inductive Half where
  | lower
  | upper
  deriving DecidableEq, Repr

/-- The half that this one is not. -/
def Half.other : Half → Half
  | .lower => .upper
  | .upper => .lower

/-- The heap buffer, the size of a half, the active half and the allocation cursor. -/
structure SemiSpaces where
  bytes : Bytes
  half : Nat
  active : Half
  top : Nat

namespace SemiSpaces

/-- An empty heap. -/
def new (heapSize : Nat) : SemiSpaces :=
  { bytes := Array.replicate (addressGuard + 2 * (heapSize / 2)) 0
    half := heapSize / 2
    active := .lower
    top := addressGuard }

/-- First offset of a half. -/
def startOf (s : SemiSpaces) : Half → Nat
  | .lower => addressGuard
  | .upper => addressGuard + s.half

def activeStart (s : SemiSpaces) : Nat := s.startOf s.active

def activeEnd (s : SemiSpaces) : Nat := s.activeStart + s.half

def inactiveStart (s : SemiSpaces) : Nat := s.startOf s.active.other

/-- Bytes in use in the active half. -/
def used (s : SemiSpaces) : Nat := s.top - s.activeStart

/-- Bytes left in the active half. -/
def free (s : SemiSpaces) : Nat := s.activeEnd - s.top

/-- Whether `[addr, addr + length)` lies in the allocated part of the active half. -/
def isAllocated (s : SemiSpaces) (addr : Ref) (length : Nat) : Bool :=
  !addr.isNull && s.activeStart ≤ addr.offset 0 && addr.offset length ≤ s.top

/-- Allocates `size` zero bytes at the cursor, if there is room. -/
def bump (size : Nat) (s : SemiSpaces) : Option Ref × SemiSpaces :=
  if s.free < size then (none, s)
  else
    (some (Ref.ofOffset s.top),
      { s with bytes := s.bytes.wipe s.top size, top := s.top + size })

/-- Makes the other half active with its cursor at `top`, and wipes this one. -/
def flip (s : SemiSpaces) (top : Nat) : Except Fault SemiSpaces :=
  if s.inactiveStart ≤ top ∧ top ≤ s.inactiveStart + s.half then
    .ok { s with
      bytes := s.bytes.wipe s.activeStart s.half
      active := s.active.other
      top }
  else .error .cursorOutside

/-- Changes the buffer's contents. -/
def mapBytes (f : Bytes → Bytes) : SemiSpaces → SemiSpaces
  | ⟨bytes, half, active, top⟩ => ⟨f bytes, half, active, top⟩

end SemiSpaces

end ObjectMachine
