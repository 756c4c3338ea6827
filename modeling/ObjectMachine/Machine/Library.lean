/-
  ObjectMachine/Machine/Library.lean
  ==================================
  **The library** — the classes every machine has, and their methods in assembly.

  In a method argument 0 is the receiver; the caller pushes the other arguments before it.
-/
import ObjectMachine.Machine.Construction

namespace ObjectMachine

/-- A method of the library as source text. -/
structure MethodSource where
  selector : String
  locals : Word
  body : List String
  deriving Repr

namespace Library

/-- Methods of Object.  An object's identity is itself, which the caller already has. -/
def objectMethods : List MethodSource := [
  ⟨"getObjectID", 0, ["return"]⟩]

/-- Methods of Array. -/
def arrayMethods : List MethodSource := [
  ⟨"length", 0, ["pop-arg 0", "syscall arr-length", "return-top"]⟩,
  ⟨"get", 0, ["pop-arg 0", "pop-arg 1", "get-field", "return-top"]⟩,
  ⟨"set", 0, ["pop-arg 0", "pop-arg 1", "pop-arg 2", "set-field", "return"]⟩]

/-- Methods of Integer. -/
def integerMethods : List MethodSource := [
  ⟨"add", 0, ["pop-arg 0", "pop-arg 1", "add-int", "return-top"]⟩,
  ⟨"subtract", 0, ["pop-arg 0", "pop-arg 1", "sub-int", "return-top"]⟩,
  ⟨"multiply", 0, ["pop-arg 0", "pop-arg 1", "mul-int", "return-top"]⟩,
  ⟨"divide", 0, ["pop-arg 0", "pop-arg 1", "div-int", "return-top"]⟩,
  ⟨"modulo", 0, ["pop-arg 0", "pop-arg 1", "mod-int", "return-top"]⟩]

/-- Methods of String. -/
def stringMethods : List MethodSource := [
  ⟨"length", 0, ["pop-arg 0", "syscall str-length", "return-top"]⟩,
  ⟨"append", 0, ["pop-arg 1", "pop-arg 0", "syscall str-append", "return-top"]⟩]

/-- A method that opens a file by a service and keeps its handle in field 0. -/
def openMethod (service : String) : MethodSource :=
  ⟨"open", 1, ["pop-arg 1", "syscall " ++ service, "push-local 0", "pop-arg 0", "push-int 0",
    "pop-local 0", "set-field", "return"]⟩

/-- The instructions that push the handle in field 0. -/
def pushHandle : List String := ["pop-arg 0", "push-int 0", "get-field"]

/-- Methods of TextFileReader. -/
def textFileReaderMethods : List MethodSource := [
  openMethod "open-file-r",
  ⟨"close", 0, pushHandle ++ ["syscall close-file-r", "return"]⟩,
  ⟨"readLine", 0, pushHandle ++ ["syscall read-line", "return-top"]⟩]

/-- Methods of TextFileWriter. -/
def textFileWriterMethods : List MethodSource := [
  openMethod "open-file-w",
  ⟨"close", 0, pushHandle ++ ["syscall close-file-w", "return"]⟩,
  ⟨"writeLine", 0, pushHandle ++ ["pop-arg 1", "syscall write-line", "return"]⟩]

end Library

namespace Machine

/-- Assembles a method and adds it to the method table. -/
def addMethodSource (source : MethodSource) : Run Word := do
  let entry ← assembleLines source.body
  newMethod source.selector entry source.locals

/-- Gives a class its methods. -/
def install (id : ClassId) (methods : List MethodSource) : Run Unit := do
  setMethods id (← methods.mapM addMethodSource)

/-- Records a change of the known classes. -/
def setKnown (f : KnownClasses → KnownClasses) : Run Unit :=
  modify fun m => { m with known := f m.known }

/-- Makes a class below Object, records it and gives it its methods. -/
def addLibraryClass (name : String) (fields : Word) (record : ClassId → KnownClasses → KnownClasses)
    (methods : List MethodSource) : Run Unit := do
  let id ← defineClass name fields
  setKnown (record id)
  install id methods

/-- Makes the library.  Metaclass comes first, so that every later class can have it as its
    class, and gets its own links once Object exists.  Object's methods come after Array,
    since a dictionary is an Array. -/
def installLibrary : Run Unit := do
  let metaclass ← newClass "Metaclass" 0 none
  setKnown fun k => { k with metaclass := some metaclass }
  let object ← newClass "Object" 0 none
  setKnown fun k => { k with object := some object }
  setClassLinks metaclass object metaclass
  addLibraryClass "Array" 0 (fun id k => { k with array := some id }) Library.arrayMethods
  install object Library.objectMethods
  addLibraryClass "Integer" 0 (fun id k => { k with integer := some id }) Library.integerMethods
  addLibraryClass "String" 0 (fun id k => { k with string := some id }) Library.stringMethods
  addLibraryClass "TextFileReader" 1 (fun id k => { k with textFileReader := some id })
    Library.textFileReaderMethods
  addLibraryClass "TextFileWriter" 1 (fun id k => { k with textFileWriter := some id })
    Library.textFileWriterMethods
  let memory := (← get).memory
  Memory.note (.libraryReady memory.classes.size memory.methods.size memory.constants.entries.size)

/-- A machine with the library. -/
def new (setup : Setup) : Except MachineError Machine := do
  let m ← bare setup
  match installLibrary m with
  | .ok () m => return m
  | .error e _ => throw e

end Machine

end ObjectMachine
