/-
  ObjectMachine/Machine/Basic.lean
  ================================
  **The machine** — a memory, the classes that the machine itself makes instances of, and
  the host: services, output and files.
-/
import ObjectMachine.Assembly.Resolver
import ObjectMachine.Host.FileTable
import ObjectMachine.Host.Sink
import ObjectMachine.Machine.Error
import ObjectMachine.Memory.Basic

namespace ObjectMachine

/-- Classes that the machine makes instances of.  Before a class exists, instances of it
    have no class. -/
structure KnownClasses where
  metaclass : Option ClassId := none
  object : Option ClassId := none
  array : Option ClassId := none
  integer : Option ClassId := none
  string : Option ClassId := none
  textFileReader : Option ClassId := none
  textFileWriter : Option ClassId := none
  deriving DecidableEq, Repr

/-- What the host does for a program: each service takes its arguments from the stack and
    leaves its result there. -/
inductive Service where
  /-- Prints a String on a line. -/
  | print
  /-- Prints an Integer on a line. -/
  | printInt
  /-- Opens a file for reading. -/
  | openReader
  /-- Opens a file for writing. -/
  | openWriter
  /-- Closes a file that was opened for reading. -/
  | closeReader
  /-- Closes a file that was opened for writing. -/
  | closeWriter
  /-- Reads a line from a file. -/
  | readLine
  /-- Writes a String as a line of a file. -/
  | writeLine
  /-- Length of a String. -/
  | stringLength
  /-- Two Strings as one. -/
  | stringAppend
  /-- Length of an Array. -/
  | arrayLength
  /-- The parts of a String between spaces. -/
  | stringSplit
  /-- Does nothing. -/
  | idle
  /-- Collects. -/
  | collect
  deriving DecidableEq, Repr

/-- A service under a number and a name. -/
structure ServiceEntry where
  id : Word
  name : String
  service : Service
  deriving DecidableEq, Repr

/-- How an entry of the service table is shown. -/
def ServiceEntry.text (e : ServiceEntry) : String := serviceText e.id e.name

/-- The services that a program can call. -/
structure ServiceTable where
  entries : List ServiceEntry
  deriving Repr

namespace ServiceTable

/-- The services every machine starts with. -/
def standard : ServiceTable where
  entries := [
    ⟨1, "print", .print⟩,
    ⟨2, "open-file-r", .openReader⟩,
    ⟨3, "open-file-w", .openWriter⟩,
    ⟨4, "close-file-r", .closeReader⟩,
    ⟨5, "close-file-w", .closeWriter⟩,
    ⟨6, "read-line", .readLine⟩,
    ⟨7, "write-line", .writeLine⟩,
    ⟨8, "print-int", .printInt⟩,
    ⟨9, "str-length", .stringLength⟩,
    ⟨10, "str-append", .stringAppend⟩,
    ⟨11, "arr-length", .arrayLength⟩,
    ⟨12, "str-split", .stringSplit⟩]

/-- The entry with a number. -/
def get? (t : ServiceTable) (id : Word) : Option ServiceEntry := t.entries.find? (·.id == id)

/-- The number of the service with a name. -/
def idOf? (t : ServiceTable) (name : String) : Option Word :=
  (t.entries.find? (·.name == name)).map (·.id)

/-- Adds an entry at the end, in place of the one with the same number. -/
def register (t : ServiceTable) (e : ServiceEntry) : ServiceTable :=
  ⟨t.entries.filter (·.id != e.id) ++ [e]⟩

end ServiceTable

/-- A machine with its host. -/
structure Machine where
  memory : Memory
  known : KnownClasses
  services : ServiceTable
  output : Sink
  files : FileTable
  directory : Directory

namespace Machine

/-- An operation of the machine; what it did before it failed stays done. -/
abbrev Run := EStateM MachineError Machine

/-- An operation on the memory. -/
@[inline] def onMemory {α : Type} (act : Memory.Run α) : Run α
  | ⟨memory, known, services, output, files, directory⟩ =>
    match act memory with
    | .ok a memory => .ok a ⟨memory, known, services, output, files, directory⟩
    | .error e memory => .error (.memory e) ⟨memory, known, services, output, files, directory⟩

instance : MonadLift Memory.Run Run := ⟨onMemory⟩

/-- An answer from the memory, as one of the machine. -/
def liftMemory {α : Type} : Except MemoryError α → Except MachineError α
  | .ok a => .ok a
  | .error e => .error (.memory e)

/-- A question to the memory. -/
@[inline] def query {α : Type} (f : Memory → Except MachineError α) : Run α := fun m =>
  match f m.memory with
  | .ok a => .ok a m
  | .error e => .error e m

/-- A result of the host. -/
def liftHost {α : Type} : Except HostError α → Run α
  | .ok a => pure a
  | .error e => throw (.host e)

/-- What a machine is made from. -/
structure Setup where
  settings : Settings := {}
  level : Option Level := none
  output : Sink := {}
  directory : Directory := {}

/-- A machine without any classes. -/
def bare (setup : Setup) : Except MachineError Machine := do
  let memory ← liftMemory (Memory.new setup.settings setup.level)
  return {
    memory
    known := {}
    services := .standard
    output := setup.output
    files := {}
    directory := setup.directory }

end Machine

end ObjectMachine
