/-
  ObjectMachine/Host/Directory.lean
  =================================
  **Directories and paths** — the files that programs can reach.

  A path is followed step by step, from the working directory or, after a leading
  slash, from the root.  `.` stays and `..` goes up, which is always possible.  There
  are no directories below, so any other step but the last fails, and how it fails
  depends on what is in the way.

  Beyond that the host may refuse anything it is asked for, for reasons of its own: a disk
  is full, a file may not be read.
-/
import ObjectMachine.Bytes
import ObjectMachine.Host.Error

namespace ObjectMachine

/-- Where a file lies: how many directories above the working directory, or `none` for
    the root; and its name there. -/
structure Location where
  level : Option Nat
  name : String
  deriving DecidableEq, Repr

namespace Location

/-- The place of a file in the working directory itself. -/
def here (name : String) : Location := ⟨some 0, name⟩

def path (l : Location) : String :=
  match l.level with
  | none => "/" ++ l.name
  | some up => String.join (List.replicate up "../") ++ l.name

end Location

/-- What the host is asked for: to open a path, or to read or write a file from an offset
    on. -/
inductive Access where
  | openForReading (path : String)
  | openForWriting (path : String)
  | read (place : Location) (offset : Nat)
  | write (place : Location) (offset : Nat)
  deriving DecidableEq, Repr

structure Directory where
  files : List (Location × Bytes) := []
  refusal : Access → Option HostError := fun _ => none

namespace Directory

def ofFiles (files : List (String × Bytes)) : Directory :=
  { files := files.map fun (name, contents) => (.here name, contents) }

/-- The files of the working directory itself. -/
def own (d : Directory) : List (String × Bytes) :=
  d.files.filterMap fun (l, contents) =>
    if l.level = some 0 then some (l.name, contents) else none

def get? (d : Directory) (l : Location) : Option Bytes := d.files.lookup l

def contains (d : Directory) (l : Location) : Bool := (d.get? l).isSome

/-- Puts contents in a list of files, in the place of the file that is there if one is. -/
def putIn (l : Location) (contents : Bytes) :
    List (Location × Bytes) → List (Location × Bytes)
  | [] => [(l, contents)]
  | (other, old) :: rest =>
    if other = l then (l, contents) :: rest
    else (other, old) :: putIn l contents rest

/-- Replaces the contents of a file, which is created if need be. -/
def put (d : Directory) (l : Location) (contents : Bytes) : Directory :=
  { d with files := putIn l contents d.files }

def ask (d : Directory) (access : Access) : Except HostError Unit :=
  match d.refusal access with
  | none => .ok ()
  | some e => .error e

/-! ### Paths -/

/-- A path taken apart: where it starts, the steps before the last, the last step, and
    whether a slash follows it. -/
structure Path where
  start : Option Nat
  parents : List String
  last : String
  trailingSlash : Bool
  deriving Repr

/-- Takes a path apart at its slashes; an empty path leads nowhere. -/
def Path.ofText? (text : String) : Option Path :=
  let steps := (text.splitOn "/").filter (· ≠ "")
  let start := if text.startsWith "/" then none else some 0
  match steps.getLast? with
  | none => if text.isEmpty then none else some ⟨start, [], ".", true⟩
  | some last => some ⟨start, steps.dropLast, last, text.toList.getLast? = some '/'⟩

/-- The longest name, in bytes. -/
def nameLimit : Nat := 255

def pathLimit : Nat := 4095

/-- What is found under a name: a file or nothing, unless the name is too long to ask. -/
def find (d : Directory) (l : Location) : Except HostError Bool :=
  if nameLimit < l.name.utf8ByteSize then .error .nameTooLong else .ok (d.contains l)

/-- The level that steps lead to from a level. -/
def climb (d : Directory) : Option Nat → List String → Except HostError (Option Nat)
  | level, [] => .ok level
  | level, "." :: rest => d.climb level rest
  | level, ".." :: rest => d.climb (level.map (· + 1)) rest
  | level, step :: _ => do
    if ← d.find ⟨level, step⟩ then throw .notDirectory else throw .notFound

inductive Target where
  | directory
  | file (place : Location)
  deriving DecidableEq, Repr

/-- Follows a path up to its last step: what the last step names, whether it is there
    or not, and whether a slash follows it. -/
def follow (d : Directory) (text : String) : Except HostError (Target × Bool) := do
  if text.contains '\x00' then throw .nulInName
  if pathLimit < text.utf8ByteSize then throw .nameTooLong
  let some path := Path.ofText? text | throw .notFound
  let level ← d.climb path.start path.parents
  if path.last = "." ∨ path.last = ".." then return (.directory, path.trailingSlash)
  else return (.file ⟨level, path.last⟩, path.trailingSlash)

def openForReading (d : Directory) (text : String) : Except HostError Target := do
  d.ask (.openForReading text)
  match ← d.follow text with
  | (.directory, _) => return .directory
  | (.file place, trailingSlash) =>
    if !(← d.find place) then throw .notFound
    else if trailingSlash then throw .notDirectory
    else return .file place

/-- Opens a path for writing: the file is created, or emptied if it is there. -/
def openForWriting (d : Directory) (text : String) :
    Except HostError (Location × Directory) := do
  d.ask (.openForWriting text)
  match ← d.follow text with
  | (.directory, _) | (_, true) => throw .isDirectory
  | (.file place, false) =>
    let _ ← d.find place
    return (place, d.put place #[])

def readFile (d : Directory) (text : String) : Except HostError Bytes := do
  match ← d.openForReading text with
  | .directory => throw .isDirectory
  | .file place => return (d.get? place).getD #[]

/-- Lays bytes over a file from an offset on; a gap before them is filled with zeros. -/
def writeAt (d : Directory) (l : Location) (offset : Nat) (xs : List UInt8) : Directory :=
  let old := ((d.get? l).getD #[]).toList
  let before := (old ++ List.replicate (offset - old.length) 0).take offset
  d.put l (before ++ xs ++ old.drop (offset + xs.length)).toArray

end Directory

end ObjectMachine
