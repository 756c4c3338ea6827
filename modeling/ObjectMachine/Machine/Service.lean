/-
  ObjectMachine/Machine/Service.lean
  ==================================
  **Host services** — what programs call by number.

  A service pops what it needs from the stack and pushes its result, if it has one.
-/
import ObjectMachine.Machine.Construction
import ObjectMachine.Text.Words

namespace ObjectMachine.Machine

/-! ### Arguments and results -/

def integerValue (m : Memory) (addr : Ref) : Except MachineError Word := do
  let v ← liftMemory (m.view addr)
  match v.intValue? with
  | some value => return value
  | none => throw (.typeMismatch .integer addr)

/-- The bytes of the String at an address. -/
def stringValue (m : Memory) (addr : Ref) : Except MachineError (List UInt8) := do
  let v ← liftMemory (m.view addr)
  if v.header.kind = .bytes then return v.payload
  else throw (.typeMismatch .string addr)

def arrayLength (m : Memory) (addr : Ref) : Except MachineError Word := do
  let v ← liftMemory (m.view addr)
  if v.hasPointers then return v.header.size
  else throw (.typeMismatch .array addr)

def popInteger : Run Word := do
  let addr ← Memory.popRef
  query (integerValue · addr)

def popString : Run (List UInt8) := do
  let addr ← Memory.popRef
  query (stringValue · addr)

def pushInteger (value : Word) : Run Unit := do
  Memory.pushRef (← newInteger value)

def pushString (bytes : List UInt8) : Run Unit := do
  Memory.pushRef (← newString bytes)

/-! ### Output -/

def write (xs : List UInt8) : Run Unit
  | ⟨memory, known, services, output, files, directory⟩ =>
    match output.write xs with
    | (.ok (), output) => .ok () ⟨memory, known, services, output, files, directory⟩
    | (.error e, output) =>
      .error (.host e) ⟨memory, known, services, output, files, directory⟩

def printLine (text : List UInt8) : Run Unit := do
  write text
  write [Reader.lineFeed]

/-! ### Files -/

def popPath : Run String := do return Utf8.decodeLossy (← popString)

def insertFile (file : OpenFile) : Run Word := modifyGet fun m =>
  let (handle, files) := m.files.insert file
  (handle, { m with files })

def setFile (handle : Word) (entry : Option OpenFile) : Run Unit :=
  modify fun m => { m with files := m.files.set handle entry }

def reader (handle : Word) : Run Reader := do
  match (← get).files.reader? handle with
  | some r => return r
  | none => throw (.unknownFileHandle handle)

def writer (handle : Word) : Run Writer := do
  match (← get).files.writer? handle with
  | some w => return w
  | none => throw (.unknownFileHandle handle)

/-- Pops a path and pushes the handle of a reader. -/
def openReader : Run Unit := do
  let path ← popPath
  let source ← liftHost ((← get).directory.openForReading path)
  let handle ← insertFile (.reader { source })
  Memory.note (.openedForReading path handle)
  pushInteger handle

/-- Pops a path and pushes the handle of a writer. -/
def openWriter : Run Unit := do
  let path ← popPath
  let (place, directory) ← liftHost ((← get).directory.openForWriting path)
  modify fun m => { m with directory }
  let handle ← insertFile (.writer { place })
  Memory.note (.openedForWriting path handle)
  pushInteger handle

def closeReader : Run Unit := do
  let handle ← popInteger
  let _ ← reader handle
  setFile handle none

/-- Lets the writer of a handle act on the files. -/
def withWriter (handle : Word) (act : Writer.Run Unit) : Run Unit := do
  let w ← writer handle
  let (result, directory, w) := Writer.outcome act (← get).directory w
  modify fun m => { m with directory }
  setFile handle (some (.writer w))
  liftHost result

/-- Pops the handle of a writer, flushes it and closes it. -/
def closeWriter : Run Unit := do
  let handle ← popInteger
  withWriter handle Writer.flush
  setFile handle none

/-- Pops the handle of a reader and pushes its next line, or null at the end. -/
def readLine : Run Unit := do
  let handle ← popInteger
  let r ← reader handle
  let (result, r) := r.readLine (← get).directory
  setFile handle (some (.reader r))
  match ← liftHost result with
  | none => Memory.pushRef Ref.null
  | some line => pushString line

/-- Pops a String and the handle of a writer, and writes the String as a line. -/
def writeLine : Run Unit := do
  let text ← popString
  let handle ← popInteger
  withWriter handle (Writer.writeLine text)

/-! ### Strings -/

/-- Stores new Strings in the Array on top of the stack, from field `index` on. -/
def storeParts (index : Nat) : List (List UInt8) → Run Unit
  | [] => pure ()
  | part :: rest => do
    let string ← newString part
    let array ← Memory.query (·.peekRef 0)
    let _ ← Memory.setField array index string.word
    storeParts (index + 1) rest

/-- Pops a String and pushes an Array of its parts.  The Array stays on the stack while it
    is filled, since making a part may move it. -/
def splitString : Run Unit := do
  let parts := Words.split (← popString)
  let array ← newArray (UInt32.ofNat parts.length)
  let ((), array) ← withRooted array (storeParts 0 parts)
  Memory.pushRef array

/-! ### All services -/

def perform : Service → Run Unit
  | .print => do printLine (← popString)
  | .printInt => do printLine (Utf8.encode (Digits.signed (← popInteger).signed))
  | .openReader => openReader
  | .openWriter => openWriter
  | .closeReader => closeReader
  | .closeWriter => closeWriter
  | .readLine => readLine
  | .writeLine => writeLine
  | .stringLength => do pushInteger (UInt32.ofNat (← popString).length)
  | .stringAppend => do
    let first ← popString
    let second ← popString
    pushString (first ++ second)
  | .arrayLength => do
    let addr ← Memory.popRef
    pushInteger (← query (arrayLength · addr))
  | .stringSplit => splitString
  | .idle => pure ()
  | .collect => Memory.collect

def invoke (id : Word) : Run Unit := do
  match (← get).services.get? id with
  | none => throw (.unknownService id)
  | some entry =>
    Memory.note (.service entry.id entry.name)
    perform entry.service

end ObjectMachine.Machine
