/-
  ObjectMachine/Memory/Basic.lean
  ===============================
  **The memory** — heap, stack, code and the tables beside them, under one owner.

  A reference that the memory hands out is good until the next allocation: allocating
  may collect, and the collector updates only the roots it knows, which are the class
  table, the dictionary table and the stack.
-/
import ObjectMachine.Memory.CodeArena
import ObjectMachine.Memory.Collector
import ObjectMachine.Memory.Constants
import ObjectMachine.Memory.FrameStack

namespace ObjectMachine

/-- Index of a class in the class table.  Classes move; their index stays. -/
structure ClassId where
  index : Word
  deriving DecidableEq, Repr

def ClassId.text (id : ClassId) : String := classIndexText id.index

/-- Everything that a program's data lives in. -/
structure Memory where
  space : SemiSpaces
  stack : FrameStack
  code : CodeArena
  pc : CodeAddress
  methods : Array Method
  constants : ConstantPool
  classes : Array Ref
  dictionaries : Array Ref
  stats : CollectionStats
  journal : Journal

namespace Memory

/-- An operation on the memory; what it did before it failed stays done. -/
abbrev Run := EStateM MemoryError Memory

def new (settings : Settings) (level : Option Level) : Except MemoryError Memory := do
  settings.validate
  return {
    space := SemiSpaces.new settings.heapSize
    stack := FrameStack.new settings.stackSize
    code := { limit := settings.codeSize }
    pc := ⟨0⟩
    methods := #[]
    constants := {}
    classes := #[]
    dictionaries := #[]
    stats := {}
    journal := { level } }

/-! ### Acting on a part -/

/-- An operation on the stack. -/
@[inline] def onStack {α : Type} (act : FrameStack.Run α) : Run α
  | ⟨space, stack, code, pc, methods, constants, classes, dictionaries, stats, journal⟩ =>
    match act stack with
    | .ok a stack =>
      .ok a ⟨space, stack, code, pc, methods, constants, classes, dictionaries, stats, journal⟩
    | .error e stack =>
      .error e ⟨space, stack, code, pc, methods, constants, classes, dictionaries, stats, journal⟩

/-- An operation on the heap that cannot fail. -/
@[inline] def onSpace {α : Type} (act : SemiSpaces → α × SemiSpaces) : Run α
  | ⟨space, stack, code, pc, methods, constants, classes, dictionaries, stats, journal⟩ =>
    match act space with
    | (a, space) =>
      .ok a ⟨space, stack, code, pc, methods, constants, classes, dictionaries, stats, journal⟩

@[inline] def modifyHeap (f : Bytes → Bytes) : Run Unit :=
  onSpace fun space => ((), space.mapBytes f)

@[inline] def query {α : Type} (f : Memory → Except MemoryError α) : Run α := fun m =>
  match f m with
  | .ok a => .ok a m
  | .error e => .error e m

@[inline] def note (event : Event) : Run Unit :=
  modify fun m => { m with journal := m.journal.note event }

/-! ### Collection -/

/-- Visits the roots in their order: the class table, the dictionary table, and the live
    words of the stack. -/
def visitRoots (classes dictionaries : Array Ref) (stack : FrameStack)
    (visit : RootKind → Ref → Evacuation.Run Ref) :
    Evacuation.Run (Array Ref × Array Ref × FrameStack) := do
  let classes ← classes.mapM (visit .classTable)
  let dictionaries ← dictionaries.mapM (visit .dictionaryTable)
  match stack.chain with
  | .ok ⟨_, some base⟩ => Evacuation.note (.chainBroken base)
  | _ => pure ()
  let stack ← stack.visitWords fun w => do return (← visit .stack ⟨w⟩).word
  return (classes, dictionaries, stack)

def collected (m : Memory) : Except Fault Memory := do
  let r ← ObjectMachine.collect m.space m.stats m.journal
    (visitRoots m.classes m.dictionaries m.stack)
  let (classes, dictionaries, stack) := r.roots
  return { m with
    space := r.space
    stats := r.stats
    journal := r.journal
    classes
    dictionaries
    stack }

def collect : Run Unit := fun m =>
  match m.collected with
  | .ok after => .ok () after
  | .error cause => .error (.fault cause) m

/-! ### Objects -/

/-- The object at an address: one whose header lies in the allocated part of the active
    half. -/
def view (m : Memory) (addr : Ref) : Except MemoryError ObjectView :=
  if addr.isNull then .error .nullDereference
  else if m.space.isAllocated addr 11 then
    match ObjectView.at? m.space.bytes addr with
    | some v => .ok v
    | none => .error (.invalidObject addr)
  else .error (.invalidObject addr)

def header (m : Memory) (addr : Ref) : Except MemoryError Header := (m.view addr).map (·.header)

def isObject (m : Memory) (addr : Ref) : Bool := (m.view addr).isOk

/-- Stores a word in a field; `false` if the object has no such field. -/
def setField (addr : Ref) (index : Nat) (value : Word) : Run Bool := do
  let header ← query (·.header addr)
  if Object.hasField header index then
    modifyHeap (Object.setField · addr index value)
    return true
  else return false

def setClass (addr classRef : Ref) : Run Unit := do
  let _ ← query (·.header addr)
  modifyHeap (Object.setClass · addr classRef)

/-- Lays bytes over the payload of an object; `false` if they do not fit. -/
def setPayload (addr : Ref) (start : Nat) (xs : List UInt8) : Run Bool := do
  let header ← query (·.header addr)
  if start + xs.length ≤ header.payloadBytes then
    modifyHeap (Object.setPayload · addr start xs)
    return true
  else return false

/-! ### Tables -/

def classRef (m : Memory) (id : ClassId) : Except MemoryError Ref :=
  match m.classes[id.index.toNat]? with
  | some addr => .ok addr
  | none => .error (.classOutOfRange id.index)

/-- All class indices, in order. -/
def classIds (m : Memory) : List ClassId :=
  (List.range m.classes.size).map fun n => ⟨UInt32.ofNat n⟩

def registerClass (addr : Ref) : Run ClassId := do
  let id : ClassId := ⟨UInt32.ofNat (← get).classes.size⟩
  modify fun m => { m with classes := m.classes.push addr }
  return id

/-- Adds a method dictionary to the dictionary table and gives its position. -/
def registerDictionary (addr : Ref) : Run Nat := do
  let position := (← get).dictionaries.size
  modify fun m => { m with dictionaries := m.dictionaries.push addr }
  return position

def addMethod (method : Method) : Run Word := do
  let index := UInt32.ofNat (← get).methods.size
  modify fun m => { m with methods := m.methods.push method }
  return index

def methodAt (m : Memory) (index : Word) : Except MemoryError Method :=
  match m.methods[index.toNat]? with
  | some method => .ok method
  | none => .error (.methodOutOfRange index)

/-- The index of a constant, which is added to the pool unless it is there. -/
def intern (c : Constant) (m : Memory) : Word × Memory :=
  let (index, constants) := m.constants.add c
  (index, { m with constants })

def addConstant (c : Constant) : Run Word := fun m =>
  match m.intern c with
  | (index, m) => .ok index m

def constantAt (m : Memory) (index : Word) : Except MemoryError Constant := m.constants.get index

/-! ### Allocation -/

/-- Allocates `size` zero bytes, collecting once if there is no room. -/
def allocate (size : Nat) : Run Ref := do
  match ← onSpace (SemiSpaces.bump size) with
  | some addr => return addr
  | none =>
    collect
    match ← onSpace (SemiSpaces.bump size) with
    | some addr => return addr
    | none => throw (.outOfMemory size (← get).space.free)

def writeHeader (addr : Ref) (header : Header) : Run Unit := do
  if (← get).space.bytes.size < addr.offset 11 then throw (.fault .outOfBuffer)
  modifyHeap (·.overwrite (addr.offset 0) header.encode)

/-- Allocates an object; its references start out null.  The class is looked up after
    the allocation, which may have moved it. -/
def allocateObject (kind : ObjectKind) (size : Word) (classId : Option ClassId) : Run Ref := do
  if let some id := classId then
    let _ ← query (·.classRef id)
  let addr ← allocate (kind.objectBytes size)
  let classRef ← match classId with
    | some id => query (·.classRef id)
    | none => pure Ref.null
  writeHeader addr ⟨kind, size, .normal classRef⟩
  if kind = .pointers then
    let _ ← query (·.header addr)
    modifyHeap (Object.setPayload · addr 0 (List.replicate (kind.payloadBytes size) 0xFF))
  return addr

/-! ### Stack -/

def pushWord (w : Word) : Run Unit := onStack (FrameStack.push w)

def popWord : Run Word := onStack FrameStack.pop

def pushRef (r : Ref) : Run Unit := pushWord r.word

def popRef : Run Ref := do return ⟨← popWord⟩

/-- The reference `depth` words below the top one. -/
def peekRef (m : Memory) (depth : Nat) : Except MemoryError Ref := (m.stack.peek depth).map Ref.mk

/-- Opens a frame that returns to the program counter. -/
def newFrame (locals : Word) : Run Unit := do
  let pc := (← get).pc
  onStack (FrameStack.newFrame locals pc)

def discardFrame : Run (Option CodeAddress) := onStack FrameStack.discardFrame

def arg (index : Word) : Run Ref := onStack (FrameStack.arg index)

def setArg (index : Word) (value : Ref) : Run Unit := onStack (FrameStack.setArg index value)

def getLocal (index : Word) : Run Ref := onStack (FrameStack.getLocal index)

def setLocal (index : Word) (value : Ref) : Run Unit := onStack (FrameStack.setLocal index value)

/-! ### Code -/

/-- Appends code to the arena and says where it starts. -/
def storeCode (code : List UInt8) : Run CodeAddress := fun m =>
  match CodeArena.store code m.code with
  | .ok entry arena => .ok entry { m with code := arena }
  | .error e arena => .error e { m with code := arena }

def setPc (pc : CodeAddress) : Run Unit := modify fun m => { m with pc }

/-- Fetches the byte at the program counter and moves past it. -/
def fetchByte : Run UInt8 := do
  let pc := (← get).pc
  let x ← query (·.code.byteAt pc)
  setPc (pc.advance 1)
  return x

/-- Fetches the word at the program counter and moves past it. -/
def fetchWord : Run Word := do
  let pc := (← get).pc
  let w ← query (·.code.wordAt pc)
  setPc (pc.advance 4)
  return w

/-! ### Diagnostics -/

/-- The allocated bytes of the active half. -/
def liveBytes (m : Memory) : List UInt8 := m.space.bytes.slice m.space.activeStart m.space.used

/-- One line of a dump: a byte in hexadecimal and as a signed number. -/
def dumpLine (offset : Nat) (x : UInt8) : String :=
  Digits.padded 4 offset ++ ": " ++ Digits.hexUpper 2 x.toNat ++ "    " ++
    Digits.signed x.toInt8.toInt ++ "\n"

/-- The allocated bytes of the active half, one to a line. -/
def dump (m : Memory) : String :=
  "# MEMORY DUMP\naddr: hex   dec\n" ++
    String.join (m.liveBytes.mapIdx fun i x => dumpLine (m.space.activeStart + i) x) ++ "\n"

end Memory

end ObjectMachine
