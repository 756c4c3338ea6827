/-
  ObjectMachine/Machine/Construction.lean
  =======================================
  **Making things** — objects, classes, methods, dictionaries and code.

  Classes are named by their index in the class table throughout, so an allocation that
  collects leaves no old address behind.
-/
import ObjectMachine.Machine.Dispatch

namespace ObjectMachine.Machine

/-! ### Objects -/

/-- An instance of a class with `size` null fields. -/
def newObject (id : ClassId) (size : Word) : Run Ref := do
  let addr ← Memory.allocateObject .pointers size (some id)
  Memory.note (.newObject addr (classIdName (← get).memory id))
  return addr

/-- Lays bytes over the payload of a new object; they have to be as long as it is. -/
def fillPayload (addr : Ref) (xs : List UInt8) : Run Unit := do
  let header ← Memory.query (·.header addr)
  if header.payloadBytes = xs.length then
    Memory.modifyHeap (Object.setPayload · addr 0 xs)
  else throw (.memory (.fault .outOfBuffer))

/-- An Integer. -/
def newInteger (value : Word) : Run Ref := do
  let addr ← Memory.allocateObject .bytes 4 (← get).known.integer
  fillPayload addr value.bytes
  Memory.note (.newInteger addr value)
  return addr

/-- A String. -/
def newString (bytes : List UInt8) : Run Ref := do
  let addr ← Memory.allocateObject .bytes (UInt32.ofNat bytes.length) (← get).known.string
  fillPayload addr bytes
  Memory.note (.newString addr bytes)
  return addr

/-- An Array of nulls. -/
def newArray (length : Word) : Run Ref := do
  let addr ← Memory.allocateObject .pointers length (← get).known.array
  Memory.note (.newArray addr length)
  return addr

/-- Keeps a reference on the stack while `act` runs, and gives it back as it is then. -/
def withRooted {α : Type} (addr : Ref) (act : Run α) : Run (α × Ref) := do
  Memory.pushRef addr
  let result ← attempt act
  let addr ← Memory.popRef
  match result with
  | .ok a => return (a, addr)
  | .error e => throw e
where
  /-- Runs an operation and hands its failure on as a value. -/
  attempt (act : Run α) : Run (Except MachineError α) := fun m =>
    match act m with
    | .ok a m => .ok (.ok a) m
    | .error e m => .ok (.error e) m

/-! ### Classes and methods -/

/-- Current address of a class, or null for none. -/
def classRefOrNull : Option ClassId → Memory.Run Ref
  | some id => Memory.query (·.classRef id)
  | none => pure Ref.null

/-- A class with `fields` fields in each instance.  Its own class and its metaclass are
    Metaclass, once that exists. -/
def newClass (name : String) (fields : Word) (superclass : Option ClassId) : Run ClassId := do
  let nameIndex ← Memory.addConstant (.text name)
  let metaclass := (← get).known.metaclass
  let addr ← Memory.allocateObject .pointers (UInt32.ofNat ClassField.count) metaclass
  let superRef ← classRefOrNull superclass
  let metaRef ← classRefOrNull metaclass
  let _ ← Memory.query (·.header addr)
  Memory.modifyHeap fun b =>
    let b := Object.setField b addr ClassField.name nameIndex
    let b := Object.setField b addr ClassField.superclass superRef.word
    let b := Object.setField b addr ClassField.metaclass metaRef.word
    let b := Object.setField b addr ClassField.objectSize fields
    Object.setField b addr ClassField.methods Ref.null.word
  let id ← Memory.registerClass addr
  Memory.note (.newClass name id.index addr)
  return id

/-- A class below Object. -/
def defineClass (name : String) (fields : Word) : Run ClassId := do
  newClass name fields (← get).known.object

/-- A method in the method table. -/
def newMethod (selector : String) (entry : CodeAddress) (locals : Word) : Run Word :=
  Memory.addMethod ⟨selector, entry, locals⟩

/-- An Array that holds method indices, in the dictionary table. -/
def newDictionary (methods : List Word) : Run Ref := do
  let addr ← newArray (UInt32.ofNat methods.length)
  let header ← Memory.query (·.header addr)
  Memory.modifyHeap (Object.setFields header addr 0 methods)
  let _ ← Memory.registerDictionary addr
  return addr

/-- Gives a class a new dictionary. -/
def setMethods (id : ClassId) (methods : List Word) : Run Unit := do
  let dictionary ← newDictionary methods
  let addr ← Memory.query (·.classRef id)
  let _ ← Memory.setField addr ClassField.methods dictionary.word

/-- Gives a class another superclass and another metaclass. -/
def setClassLinks (id superclass metaclass : ClassId) : Run Unit := do
  let superRef ← Memory.query (·.classRef superclass)
  let metaRef ← Memory.query (·.classRef metaclass)
  let addr ← Memory.query (·.classRef id)
  let _ ← Memory.setField addr ClassField.superclass superRef.word
  let _ ← Memory.setField addr ClassField.metaclass metaRef.word
  Memory.setClass addr metaRef

/-! ### Code -/

/-- The machine as the assembler's host: constants go to the pool; names are services,
    classes or selectors, depending on the instruction. -/
def resolver : Resolver Machine where
  text value := intern (.text value)
  number value := intern (.number value)
  name op value :=
    match op with
    | .syscall => return (← get).services.idOf? value
    | .new => return (classNamed? (← get).memory value).map (·.index)
    | .call => return some (← intern (.text value))
    | _ => return none
where
  /-- The index of a constant. -/
  intern (c : Constant) : StateM Machine Word
  | ⟨memory, known, services, output, files, directory⟩ =>
    let (index, memory) := memory.intern c
    (index, ⟨memory, known, services, output, files, directory⟩)

/-- Runs the assembler with the machine as its host. -/
def runAssembler {α : Type} (act : Resolver.Run Machine α) : Run α := fun m =>
  match act.run.run m with
  | (.ok a, m) => .ok a m
  | (.error e, m) => .error (.assembly e) m

/-- Assembles a source text and stores its code. -/
def assemble (source : String) : Run CodeAddress := do
  Memory.storeCode (← runAssembler (ObjectMachine.assemble resolver source))

/-- Assembles lines of text and stores their code. -/
def assembleLines (lines : List String) : Run CodeAddress := do
  Memory.storeCode (← runAssembler (ObjectMachine.assembleLines resolver lines))

end ObjectMachine.Machine
