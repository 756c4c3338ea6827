/-
  ObjectMachine/CommandLine.lean
  ==============================
  **The command line** — running a source file, or a built-in demonstration.

  Everything here is a function from arguments and files to what is printed and to the
  files afterwards; reading and writing the real ones is left to the program.
-/
import ObjectMachine.Machine.Interpreter
import ObjectMachine.Machine.Library

namespace ObjectMachine.CommandLine

/-! ### Arguments -/

structure Arguments where
  file : Option String := none
  heapSize : Option Nat := none
  stackSize : Option Nat := none
  codeSize : Option Nat := none
  locals : Option Word := none
  dumpCode : Bool := false
  dumpHeap : Bool := false
  verbose : Bool := false
  deriving Repr

/-- The number that decimal digits stand for, if it is below `limit`. -/
def digitsBelow? (limit : Nat) (cs : List Char) : Option Nat :=
  (Numeral.digits? 10 Numeral.decimalDigit? cs).filter (· < limit)

def size? (text : String) : Option Nat :=
  match text.toList with
  | '+' :: cs => digitsBelow? sizeLimit cs
  | cs => digitsBelow? sizeLimit cs

/-- A number of locals: decimal digits, possibly after a sign; a minus sign is of use only
    with zero. -/
def count? (text : String) : Option Word :=
  match text.toList with
  | '+' :: cs => (digitsBelow? wordLimit cs).map UInt32.ofNat
  | '-' :: cs => (digitsBelow? 1 cs).map UInt32.ofNat
  | cs => (digitsBelow? wordLimit cs).map UInt32.ofNat

/-- Sets a value that may be given once. -/
def once {α : Type} (current : Option α) (value : Option α) : Option (Option α) :=
  if current.isSome then none else value.map some

/-- Sets a flag that may be given once. -/
def raise (current : Bool) : Option Bool := if current then none else some true

def setOption (a : Arguments) (name value : String) : Option Arguments :=
  match name with
  | "--heap-size" => (once a.heapSize (size? value)).map fun v => { a with heapSize := v }
  | "--stack-size" => (once a.stackSize (size? value)).map fun v => { a with stackSize := v }
  | "--code-size" => (once a.codeSize (size? value)).map fun v => { a with codeSize := v }
  | "--locals" => (once a.locals (count? value)).map fun v => { a with locals := v }
  | _ => none

def setFlag (a : Arguments) (name : String) : Option Arguments :=
  match name with
  | "--dump-code" => (raise a.dumpCode).map fun v => { a with dumpCode := v }
  | "--dump-heap" => (raise a.dumpHeap).map fun v => { a with dumpHeap := v }
  | "--verbose" => (raise a.verbose).map fun v => { a with verbose := v }
  | _ => none

/-- Raises the flags that single letters stand for. -/
def setLetters (a : Arguments) (letters : List Char) : Option Arguments :=
  letters.foldlM (fun a c => if c = 'v' then setFlag a "--verbose" else none) a

def setFile (a : Arguments) (file : String) : Option Arguments :=
  (once a.file (some file)).map fun v => { a with file := v }

def takesValue (name : String) : Bool :=
  ["--heap-size", "--stack-size", "--code-size", "--locals"].contains name

def isOption (arg : String) : Bool := arg.startsWith "-" && arg != "-"

/-- The name and the value of an argument of the form `name=value`. -/
def splitValue? (arg : String) : Option (String × String) :=
  let cs := arg.toList
  if cs.contains '=' then
    some (String.ofList (cs.takeWhile (· ≠ '=')), String.ofList ((cs.dropWhile (· ≠ '=')).drop 1))
  else none

/-- Reads arguments; `none` if they cannot be understood. -/
def parseFrom (a : Arguments) : List String → Option Arguments
  | [] => some a
  | arg :: rest =>
    if arg = "--" then rest.foldlM setFile a
    else if !isOption arg then do parseFrom (← setFile a arg) rest
    else if !arg.startsWith "--" then do parseFrom (← setLetters a (arg.toList.drop 1)) rest
    else match splitValue? arg with
      | some (name, value) => do parseFrom (← setOption a name value) rest
      | none =>
        if takesValue arg then
          match rest with
          | value :: rest =>
            if isOption value then none else do parseFrom (← setOption a arg value) rest
          | [] => none
        else do parseFrom (← setFlag a arg) rest

def parse? (args : List String) : Option Arguments := parseFrom {} args

/-! ### Running -/

/-- The source that runs when no file is named: a counting loop, string methods and an
    array.  Local 0 is the sum, local 1 the counter, local 2 the words. -/
def demonstration : String := "\n".intercalate [
  "  new-int 0",
  "  push-local 0",
  "  new-int 1",
  "  push-local 1",
  "loop:",
  "  pop-local 0",
  "  pop-local 1",
  "  add-int",
  "  push-local 0",
  "  pop-local 1",
  "  new-int 1",
  "  add-int",
  "  push-local 1",
  "  pop-local 1",
  "  new-int 10",
  "  jmp-le-int @loop",
  "  pop-local 0",
  "  syscall print-int",
  "  new-str \" world\"",
  "  new-str \"hello\"",
  "  call append",
  "  syscall print",
  "  pop-ref",
  "  pop-ref",
  "  new-str \"the quick brown fox\"",
  "  syscall str-split",
  "  push-local 2",
  "  pop-local 2",
  "  call length",
  "  syscall print-int",
  "  pop-ref",
  "  push-int 1",
  "  pop-local 2",
  "  call get",
  "  syscall print",
  "  pop-ref",
  "  pop-int",
  "  halt"]

/-- What a command did: its exit status, its output and the files afterwards. -/
structure Outcome where
  exit : Nat
  stdout : List UInt8 := []
  stderr : String := ""
  directory : Directory

def Arguments.settings (a : Arguments) : Settings :=
  let standard : Settings := {}
  { heapSize := a.heapSize.getD standard.heapSize
    stackSize := a.stackSize.getD standard.stackSize
    codeSize := a.codeSize.getD standard.codeSize }

/-- The source to run, or why it cannot be read. -/
def source (a : Arguments) (directory : Directory) : Except String String :=
  match a.file with
  | none => .ok demonstration
  | some file =>
    let refuse (e : HostError) := "Error reading file '" ++ file ++ "': " ++ e.message ++ "\n"
    match directory.readFile file with
    | .error e => .error (refuse e)
    | .ok contents =>
      match Utf8.decode? contents.toList with
      | some text => .ok text
      | none => .error (refuse .invalidText)

def errorLine (e : MachineError) : String := "Error: " ++ e.message ++ "\n"

/-- A command that failed before it printed anything. -/
def failed (directory : Directory) (e : MachineError) : Outcome :=
  { exit := 1, stderr := errorLine e, directory }

def listCode (m : Machine) (entry : CodeAddress) : Outcome :=
  let base := entry.word.toNat
  match listing base (m.memory.code.bytes.toList.drop base) with
  | .ok text => { exit := 0, stdout := Utf8.encode text, directory := m.directory }
  | .error e => failed m.directory (.decode e)

/-- What a finished run printed, with a dump of the heap if that was asked for. -/
def printed (a : Arguments) (m : Machine) : List UInt8 :=
  m.output.written.toList ++ if a.dumpHeap then Utf8.encode m.memory.dump else []

def runCode (fuel : Nat) (a : Arguments) (m : Machine) (entry : CodeAddress) : Outcome :=
  match Machine.run fuel entry (a.locals.getD 8) m with
  | .ok .finished m => { exit := 0, stdout := printed a m, directory := m.directory }
  | .ok .unfinished m =>
    { exit := 1, stdout := printed a m, stderr := "Error: out of time\n", directory := m.directory }
  | .error e m =>
    { exit := 1, stdout := printed a m, stderr := errorLine e, directory := m.directory }

/-- Carries out a command in a directory, for `fuel` instructions at most. -/
def execute (fuel : Nat) (args : List String) (directory : Directory) : Outcome :=
  match parse? args with
  | none => { exit := 2, stderr := "Error: invalid arguments\n", directory }
  | some a =>
    match source a directory with
    | .error message => { exit := 1, stderr := message, directory }
    | .ok text =>
      match Machine.new { settings := a.settings, directory } with
      | .error e => failed directory e
      | .ok m =>
        match Machine.assemble text m with
        | .error e m => failed m.directory e
        | .ok entry m => if a.dumpCode then listCode m entry else runCode fuel a m entry

end ObjectMachine.CommandLine
