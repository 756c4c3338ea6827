/-
  ObjectMachine/Journal.lean
  ==========================
  **The journal** — what the machine reports about its own work.

  Events are kept as data and become text only when someone asks.  A journal keeps the
  events up to its level and drops the others.
-/
import ObjectMachine.Address
import ObjectMachine.Instruction.Basic
import ObjectMachine.Text.Quoted
import ObjectMachine.Text.Utf8

namespace ObjectMachine

/-- How detailed a report is. -/
inductive Level where
  | warn
  | info
  | debug
  | trace
  deriving DecidableEq, Repr

namespace Level

/-- Position from the least to the most detailed. -/
def rank : Level → Nat
  | .warn => 1
  | .info => 2
  | .debug => 3
  | .trace => 4

/-- The name of a level in a report. -/
def name : Level → String
  | .warn => "WARN"
  | .info => "INFO"
  | .debug => "DEBUG"
  | .trace => "TRACE"

end Level

/-- Where a root comes from. -/
inductive RootKind where
  | classTable
  | dictionaryTable
  /-- A stack word: an address only if it leads to an object. -/
  | stack
  deriving DecidableEq, Repr

/-- The name of a kind of root in a report. -/
def RootKind.name : RootKind → String
  | .classTable => "Class"
  | .dictionaryTable => "MethodDictionary"
  | .stack => "Stack"

/-- Something worth reporting. -/
inductive Event where
  | chainBroken (base : Nat)
  | rootNotObject (kind : RootKind) (slot : Ref)
  | spaceExhausted (addr : Ref)
  | fieldNotObject (index : Nat) (owner target : Ref)
  | invalidHeader (addr : Ref)
  | classNotObject (addr classRef : Ref)
  | collected (cycle copied reclaimed : Nat)
  | newObject (addr : Ref) (className : String)
  | newInteger (addr : Ref) (value : Word)
  | newString (addr : Ref) (bytes : List UInt8)
  | newArray (addr : Ref) (length : Word)
  | newClass (name : String) (index : Word) (addr : Ref)
  | libraryReady (classes methods constants : Nat)
  | openedForReading (path : String) (handle : Word)
  | openedForWriting (path : String) (handle : Word)
  | sent (selector : String) (receiver : Ref) (entry : CodeAddress)
  | service (id : Word) (name : String)
  | executed (pc : CodeAddress) (instruction : Instruction)
  | stopped (steps : Nat)
  deriving Repr

/-- How a class index is shown. -/
def classIndexText (index : Word) : String := "class#" ++ Nat.repr index.toNat

/-- How an entry of the service table is shown. -/
def serviceText (id : Word) (name : String) : String :=
  "syscall " ++ Digits.signed id.signed ++ " (" ++ name ++ ")"

namespace Event

/-- The level of an event. -/
def level : Event → Level
  | .chainBroken _ | .rootNotObject .. | .spaceExhausted _ | .fieldNotObject ..
  | .invalidHeader _ | .classNotObject .. => .warn
  | .collected .. => .info
  | .newObject .. | .newInteger .. | .newString .. | .newArray .. | .newClass ..
  | .libraryReady .. | .openedForReading .. | .openedForWriting .. | .stopped _ => .debug
  | .sent .. | .service .. | .executed .. => .trace

/-- The text of an event. -/
def message : Event → String
  | .chainBroken base => "frame chain points past the stack top at " ++ Nat.repr base
  | .rootNotObject kind slot =>
    kind.name ++ " root " ++ slot.text ++ " does not reference an object"
  | .spaceExhausted addr => "to-space exhausted while copying " ++ addr.text
  | .fieldNotObject index owner target =>
    "field " ++ Nat.repr index ++ " of " ++ owner.text ++ " holds " ++ target.text ++
      ", not an object; left as is"
  | .invalidHeader addr => "scan hit an invalid header at " ++ addr.text
  | .classNotObject addr classRef =>
    "class of " ++ addr.text ++ " is " ++ classRef.text ++ ", not an object; left as is"
  | .collected cycle copied reclaimed =>
    "gc #" ++ Nat.repr cycle ++ ": copied " ++ Nat.repr copied ++ " bytes, reclaimed " ++
      Nat.repr reclaimed ++ " bytes"
  | .newObject addr className => "new object " ++ addr.text ++ " of " ++ className
  | .newInteger addr value =>
    "new integer " ++ addr.text ++ " = " ++ Digits.signed value.signed
  | .newString addr bytes =>
    "new string " ++ addr.text ++ " " ++ Text.quote (Utf8.decodeLossy bytes)
  | .newArray addr length =>
    "new array " ++ addr.text ++ " of " ++ Nat.repr length.toNat
  | .newClass name index addr =>
    "new class " ++ name ++ " (" ++ classIndexText index ++ ") at " ++ addr.text
  | .libraryReady classes methods constants =>
    "bootstrapped " ++ Nat.repr classes ++ " classes, " ++ Nat.repr methods ++ " methods, " ++
      Nat.repr constants ++ " constants"
  | .openedForReading path handle =>
    "opened " ++ path ++ " for reading as " ++ Digits.signed handle.signed
  | .openedForWriting path handle =>
    "opened " ++ path ++ " for writing as " ++ Digits.signed handle.signed
  | .sent selector receiver entry =>
    "send " ++ Text.quote selector ++ " to " ++ receiver.text ++ " -> " ++ entry.text
  | .service id name => serviceText id name
  | .executed pc instruction => pc.text ++ ": " ++ instruction.text
  | .stopped steps => "stopped after " ++ Nat.repr steps ++ " instructions"

/-- An event as a line of a report. -/
def report (e : Event) : String := e.level.name ++ " " ++ e.message

end Event

/-- The most detailed level that is kept, if any, and the events kept so far. -/
structure Journal where
  level : Option Level := none
  events : Array Event := #[]

namespace Journal

/-- Whether events of a level are kept. -/
def keeps (j : Journal) (level : Level) : Bool :=
  match j.level with
  | none => false
  | some limit => level.rank ≤ limit.rank

/-- Keeps an event if its level is wanted. -/
@[inline] def note (j : Journal) (e : Event) : Journal :=
  if j.keeps e.level then { j with events := j.events.push e } else j

/-- The same journal without its events. -/
def clear (j : Journal) : Journal := { j with events := #[] }

end Journal

end ObjectMachine
