/-
  ObjectMachine/Machine/Interpreter.lean
  ======================================
  **Running code** — fetching instructions and carrying them out.

  `step` carries out one instruction, `runFrom` a bounded number of them.  A run ends with
  `halt` or with the return out of the frame that it was entered with; that it may also not
  have ended yet is an outcome of its own.
-/
import ObjectMachine.Machine.Service

namespace ObjectMachine

/-- How a run goes on after an instruction. -/
inductive Flow where
  | next
  | stop
  deriving DecidableEq, Repr

/-- How far a bounded run came. -/
inductive Progress where
  | finished
  | unfinished
  deriving DecidableEq, Repr

/-- The five operations on Integers. -/
inductive Arithmetic where
  | add
  | sub
  | mul
  | div
  | mod
  deriving DecidableEq, Repr

/-- The result of an operation: it wraps around, quotients are cut toward zero, and
    remainders have the sign of the dividend. -/
def Arithmetic.apply : Arithmetic → Word → Word → Except MachineError Word
  | .add, a, b => .ok (a + b)
  | .sub, a, b => .ok (a - b)
  | .mul, a, b => .ok (a * b)
  | .div, a, b =>
    if b = 0 then .error .divisionByZero else .ok (a.toInt32 / b.toInt32).toUInt32
  | .mod, a, b =>
    if b = 0 then .error .divisionByZero else .ok (a.toInt32 % b.toInt32).toUInt32

namespace Machine

/-- An answer, as the result of an operation. -/
def liftExcept {α : Type} : Except MachineError α → Run α
  | .ok a => pure a
  | .error e => throw e

/-! ### Constants -/

/-- The text of a string constant. -/
def textConstant (m : Memory) (index : Word) : Except MachineError String := do
  match ← liftMemory (m.constantAt index) with
  | .text value => return value
  | .number _ => throw (.constantKind index .text)

/-- The length that an integer constant stands for. -/
def lengthConstant (m : Memory) (index : Word) : Except MachineError Word := do
  match ← liftMemory (m.constantAt index) with
  | .text _ => throw (.constantKind index .number)
  | .number value => if value.signed < 0 then throw (.negativeLength value) else return value

/-- Number of fields of an instance of the class at an address. -/
def instanceSize (m : Memory) (addr : Ref) : Except MachineError Word :=
  match classView m addr with
  | .ok c => .ok c.objectSize
  | .error _ => .error (.typeMismatch .classObject addr)

/-! ### Instructions -/

/-- The field that a raw index stands for, unless it is negative. -/
def fieldIndex (index : Word) : Except MachineError Nat :=
  if index.signed < 0 then .error (.fieldOutOfBounds Ref.null index) else .ok index.toNat

/-- The value of a field. -/
def fieldValue (m : Memory) (object : Ref) (index : Word) : Except MachineError Ref := do
  let v ← liftMemory (m.view object)
  match v.field? (← fieldIndex index) with
  | some value => return value
  | none => throw (.fieldOutOfBounds object index)

/-- Pops a raw index and an object and pushes the field. -/
def getField : Run Unit := do
  let index ← Memory.popWord
  let object ← Memory.popRef
  Memory.pushRef (← query (fieldValue · object index))

/-- Pops a value, a raw index and an object and stores the field. -/
def setField : Run Unit := do
  let value ← Memory.popRef
  let index ← Memory.popWord
  let object ← Memory.popRef
  let _ ← Memory.query (·.header object)
  let field ← liftExcept (fieldIndex index)
  if !(← Memory.setField object field value.word) then
    throw (.fieldOutOfBounds object index)

/-- Pops an object and overwrites the first word of its payload. -/
def setFirstWord (value : Word) : Run Unit := do
  let object ← Memory.popRef
  if !(← Memory.setPayload object 0 value.bytes) then throw (.typeMismatch .integer object)

/-- Pops the right operand, then the left one, and pushes the result as a new Integer. -/
def arithmetic (op : Arithmetic) : Run Unit := do
  let right ← popInteger
  let left ← popInteger
  pushInteger (← liftExcept (op.apply left right))

/-- Pushes a new instance of a class. -/
def instantiate (id : ClassId) : Run Unit := do
  let addr ← Memory.query (·.classRef id)
  let size ← query (instanceSize · addr)
  Memory.pushRef (← newObject id size)

/-- Moves the program counter. -/
def jump (offset : Word) : Run Unit := do
  let pc := (← get).memory.pc
  Memory.setPc (pc.advance offset)

/-- Drops the current frame.  The run stops if it was the frame with base `entryBase`, or
    the outermost one; otherwise it goes on at the return address. -/
def leave (entryBase : Word) : Run Flow := do
  let base := (← get).memory.stack.bp
  match ← Memory.discardFrame with
  | none => return .stop
  | some returnTo =>
    if base = entryBase then return .stop
    Memory.setPc returnTo
    return .next

/-- Carries out an instruction that has been fetched. -/
def step (entryBase : Word) : Instruction → Run Flow
  | .halt => return .stop
  | .syscall id => do invoke id; return .next
  | .call selector => do
    let selector ← query (textConstant · selector)
    let receiver ← Memory.popRef
    send receiver selector
    return .next
  | .ret => leave entryBase
  | .retTop => do
    let value ← Memory.popRef
    let flow ← leave entryBase
    Memory.pushRef value
    return flow
  | .new index => do instantiate ⟨index⟩; return .next
  | .getField => do getField; return .next
  | .setField => do setField; return .next
  | .setBytes value => do setFirstWord value; return .next
  | .pushRef address => do Memory.pushRef ⟨address⟩; return .next
  | .popRef => do let _ ← Memory.popRef; return .next
  | .pushInt value => do Memory.pushWord value; return .next
  | .popInt => do let _ ← Memory.popWord; return .next
  | .storeLocal index => do
    let value ← Memory.popRef
    Memory.setLocal index value
    return .next
  | .loadLocal index => do
    let value ← Memory.getLocal index
    Memory.pushRef value
    return .next
  | .storeArg index address => do Memory.setArg index ⟨address⟩; return .next
  | .loadArg index => do
    let value ← Memory.arg index
    Memory.pushRef value
    return .next
  | .addInt => do arithmetic .add; return .next
  | .subInt => do arithmetic .sub; return .next
  | .mulInt => do arithmetic .mul; return .next
  | .divInt => do arithmetic .div; return .next
  | .modInt => do arithmetic .mod; return .next
  | .newInt value => do pushInteger value; return .next
  | .newStr text => do
    let text ← query (textConstant · text)
    pushString (Utf8.encode text)
    return .next
  | .newArr length => do
    let length ← query (lengthConstant · length)
    Memory.pushRef (← newArray length)
    return .next
  | .jump offset => do jump offset; return .next
  | .branch condition offset => do
    let right ← popInteger
    let left ← popInteger
    if condition.holds left right then jump offset
    return .next

/-! ### Runs -/

/-- Fetches the instruction at the program counter and moves past it. -/
def fetch : Run Instruction := do
  let pc := (← get).memory.pc
  let x ← Memory.fetchByte
  match Opcode.ofByte? x with
  | none => throw (.unknownOpcode x pc)
  | some op => Instruction.read op Memory.fetchWord

/-- Fetches an instruction and carries it out. -/
def advance (entryBase : Word) : Run Flow := do
  let pc := (← get).memory.pc
  let instruction ← fetch
  Memory.note (.executed pc instruction)
  step entryBase instruction

/-- Carries out instructions until the run ends, `fuel` at most; `steps` have been carried
    out before. -/
def runFrom (entryBase : Word) : (fuel steps : Nat) → Run Progress
  | 0, _ => return .unfinished
  | fuel + 1, steps => do
    match ← advance entryBase with
    | .next => runFrom entryBase fuel (steps + 1)
    | .stop =>
      Memory.note (.stopped (steps + 1))
      return .finished

/-- Opens a frame and runs the code at an address in it, for `fuel` instructions at most. -/
def run (fuel : Nat) (entry : CodeAddress) (locals : Word) : Run Progress := do
  Memory.newFrame locals
  Memory.setPc entry
  runFrom (← get).memory.stack.bp fuel 0

end Machine

end ObjectMachine
