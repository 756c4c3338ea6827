/-
  ObjectMachine/Memory/FrameStack.lean
  ====================================
  **The frame stack** — operands and call frames in one buffer that grows upwards.

            … operands of the caller …
            argument 1                    bp - 8
            argument 0, the receiver      bp - 4
      bp →  base of the caller's frame    bp
            return address                bp + 4
            local 0                       bp + 8
            … locals, then operands …
      sp →  the next free word

  Programs may overwrite any of this, so each operation checks what it relies on.  An
  access that would leave the buffer is a fault.
-/
import ObjectMachine.Memory.Error

namespace ObjectMachine

/-- The base pointer while no frame is open. -/
def noFrame : Word := 0xFFFFFFFF

/-- The buffer, the offset of the next free word and the base of the current frame. -/
structure FrameStack where
  bytes : Bytes
  sp : Nat
  bp : Word

namespace FrameStack

/-- An operation on the stack. -/
abbrev Run := EStateM MemoryError FrameStack

def new (size : Nat) : FrameStack := ⟨Array.replicate size 0, 0, noFrame⟩

def load (offset : Nat) : Run Word := fun s =>
  match s.bytes.word? offset with
  | some w => .ok w s
  | none => .error (.fault .outOfBuffer) s

def store (offset : Nat) (w : Word) : Run Unit := fun s =>
  if offset + 4 ≤ s.bytes.size then
    .ok () { s with bytes := s.bytes.overwrite offset w.bytes }
  else .error (.fault .outOfBuffer) s

def setTop (sp : Nat) : Run Unit := modify fun s => { s with sp }

def setBase (bp : Word) : Run Unit := modify fun s => { s with bp }

/-! ### Operands -/

def push (w : Word) : Run Unit := do
  let sp := (← get).sp
  if (← get).bytes.size < sp + 4 then throw .stackOverflow
  store sp w
  setTop (sp + 4)

def pop : Run Word := do
  let sp := (← get).sp
  if sp < 4 then throw .stackUnderflow
  setTop (sp - 4)
  load (sp - 4)

/-- The word `depth` words below the top one. -/
def peek (s : FrameStack) (depth : Nat) : Except MemoryError Word :=
  let back := (depth + 1) * 4
  if sizeLimit ≤ back then .error (.fault .overflow)
  else if s.sp < back then .error .stackUnderflow
  else match s.bytes.word? (s.sp - back) with
    | some w => .ok w
    | none => .error (.fault .outOfBuffer)

/-! ### Frames -/

def pushMany (w : Word) : Nat → Run Unit
  | 0 => pure ()
  | n + 1 => do
    push w
    pushMany w n

/-- Opens a frame with null locals. -/
def newFrame (locals : Word) (returnTo : CodeAddress) : Run Unit := do
  let base := (← get).sp
  if (← get).bytes.size < base + (8 + locals.toNat * 4) then throw .stackOverflow
  push (← get).bp
  push returnTo.word
  pushMany Ref.null.word locals.toNat
  setBase (UInt32.ofNat base)

/-- Zeroes the bytes from `start` up to the stack pointer. -/
def wipeFrom (start : Nat) : Run Unit := fun s =>
  if start ≤ s.sp ∧ s.sp ≤ s.bytes.size then
    .ok () { s with bytes := s.bytes.wipe start (s.sp - start) }
  else .error (.fault .outOfBuffer) s

/-- Drops the current frame with everything above it and makes its caller's the current
    one.  Gives the return address, or nothing if the caller had no frame. -/
def discardFrame : Run (Option CodeAddress) := do
  let bp := (← get).bp
  if bp = noFrame then throw .stackUnderflow
  let base := bp.toNat
  if (← get).sp < base + 8 then throw .stackUnderflow
  let link ← load base
  if link ≠ noFrame ∧ base < link.toNat + 8 then throw (.corruptFrame bp)
  let returnTo ← load (base + 4)
  wipeFrom base
  setTop base
  setBase link
  return if link = noFrame then none else some ⟨returnTo⟩

/-- Offset of an argument slot of the current frame. -/
def argOffset (s : FrameStack) (index : Word) : Except MemoryError Nat :=
  let back := 4 * (1 + index.toNat)
  if s.bp = noFrame then .error .stackUnderflow
  else if s.bp.toNat < back then .error .stackUnderflow
  else if s.bytes.size < s.bp.toNat - back + 4 then .error (.corruptFrame s.bp)
  else .ok (s.bp.toNat - back)

def localOffset (s : FrameStack) (index : Word) : Except MemoryError Nat :=
  let offset := s.bp.toNat + 8 + 4 * index.toNat
  if s.bp = noFrame then .error .stackUnderflow
  else if s.bytes.size < offset + 4 then .error .stackOverflow
  else .ok offset

def offsetBy (f : FrameStack → Except MemoryError Nat) : Run Nat := fun s =>
  match f s with
  | .ok offset => .ok offset s
  | .error e => .error e s

def arg (index : Word) : Run Ref := do
  return ⟨← load (← offsetBy (·.argOffset index))⟩

def setArg (index : Word) (value : Ref) : Run Unit := do
  store (← offsetBy (·.argOffset index)) value.word

def getLocal (index : Word) : Run Ref := do
  return ⟨← load (← offsetBy (·.localOffset index))⟩

def setLocal (index : Word) (value : Ref) : Run Unit := do
  store (← offsetBy (·.localOffset index)) value.word

/-! ### Scanning -/

/-- The frames found by following the links, innermost first. -/
structure Chain where
  bases : List Nat
  /-- A base past the top of the stack, at which the walk ended. -/
  brokenAt : Option Nat
  deriving DecidableEq, Repr

/-- Follows at most `budget` links from `bp`. -/
def chainFrom (s : FrameStack) : (budget : Nat) → (bp : Word) → Except Fault Chain
  | 0, _ => .ok ⟨[], none⟩
  | budget + 1, bp =>
    if bp = noFrame then .ok ⟨[], none⟩
    else if s.sp < bp.toNat + 8 then .ok ⟨[], some bp.toNat⟩
    else match s.bytes.word? bp.toNat with
      | none => .error .outOfBuffer
      | some link => (s.chainFrom budget link).map fun chain =>
          { chain with bases := bp.toNat :: chain.bases }

/-- The open frames.  Each takes at least two words, which bounds their number. -/
def chain (s : FrameStack) : Except Fault Chain := s.chainFrom (s.sp / 8 + 1) s.bp

/-- Whether an offset holds a frame's link or return address. -/
def Chain.controls (chain : Chain) (offset : Nat) : Bool :=
  chain.bases.any fun base => offset == base || offset == base + 4

/-- Offsets of the words below the stack pointer that are not frame bookkeeping. -/
def liveOffsets (s : FrameStack) (chain : Chain) : List Nat :=
  ((List.range ((s.sp + 3) / 4)).map (· * 4)).filter fun offset => !chain.controls offset

/-- Replaces the word at an offset by what `visit` makes of it. -/
def visitAt {m : Type → Type} [Monad m] [MonadExceptOf Fault m] (visit : Word → m Word)
    (s : FrameStack) (offset : Nat) : m FrameStack :=
  match s.bytes.word? offset with
  | none => throw .outOfBuffer
  | some w => do
    let after ← visit w
    if after = w then return s
    else return { s with bytes := s.bytes.overwrite offset after.bytes }

/-- Replaces each live word, from the bottom up, by what `visit` makes of it. -/
def visitWords {m : Type → Type} [Monad m] [MonadExceptOf Fault m] (visit : Word → m Word)
    (s : FrameStack) : m FrameStack :=
  match s.chain with
  | .error cause => throw cause
  | .ok chain => (s.liveOffsets chain).foldlM (visitAt visit) s

end FrameStack

end ObjectMachine
