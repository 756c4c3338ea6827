/-
  ObjectMachine/Host/FileTable.lean
  =================================
  **Open files** — by handle, which is a position in a table and never used again.

  A reader takes its file in blocks, so what it has taken it does not see changed.  A
  writer keeps its own place in its file, and holds back what it was given until there is a
  block of it or it is flushed; where the host refuses a write, it goes on holding.
-/
import ObjectMachine.Host.Directory
import ObjectMachine.Text.Utf8

namespace ObjectMachine

/-- How many bytes a reader takes at a time, and the most that a writer holds back. -/
def blockSize : Nat := 8192

/-- A file or directory being read: the place of the next block, and what is left of
    the last. -/
structure Reader where
  source : Directory.Target
  offset : Nat := 0
  buffer : List UInt8 := []
  deriving Repr

/-- A file being written, the place of the next byte, and the bytes that are held back. -/
structure Writer where
  place : Location
  offset : Nat := 0
  held : List UInt8 := []
  deriving Repr

namespace Reader

def lineFeed : UInt8 := 10

def carriageReturn : UInt8 := 13

/-- Bytes up to and with the first line feed, and those after it if there is one. -/
def splitLine (xs : List UInt8) : List UInt8 × Option (List UInt8) :=
  match xs.dropWhile (· != lineFeed) with
  | [] => (xs, none)
  | x :: rest => (xs.takeWhile (· != lineFeed) ++ [x], some rest)

/-- Takes bytes up to and with the next line feed, or to the end of the contents: what
    was taken, the new offset and the new buffer.  Where the host refuses the next block,
    what was taken is lost. -/
def takeLine (contents : Bytes) (ask : Nat → Except HostError Unit) (offset : Nat)
    (buffer : List UInt8) : Except HostError (List UInt8) × Nat × List UInt8 :=
  match splitLine buffer with
  | (line, some rest) => (.ok line, offset, rest)
  | (part, none) =>
    match ask offset with
    | .error e => (.error e, offset, [])
    | .ok () =>
      if _more : offset < contents.size then
        let next := min (offset + blockSize) contents.size
        let (line, offset, buffer) :=
          takeLine contents ask next (contents.slice offset blockSize)
        (line.map (part ++ ·), offset, buffer)
      else (.ok part, offset, [])
termination_by contents.size - offset
decreasing_by
  simp only [blockSize]
  omega

/-- A line without the line feeds and carriage returns at its end. -/
def trimEnd (line : List UInt8) : List UInt8 :=
  (line.reverse.dropWhile fun x => x == lineFeed || x == carriageReturn).reverse

/-- Reads the next line: nothing at the end of the file, an error if it is not UTF-8.
    What was read is consumed either way. -/
def readLine (d : Directory) (r : Reader) :
    Except HostError (Option (List UInt8)) × Reader :=
  match r.source with
  | .directory => (.error .isDirectory, r)
  | .file place =>
    let (line, offset, buffer) := takeLine ((d.get? place).getD #[])
      (fun offset => d.ask (.read place offset)) r.offset r.buffer
    let r := { r with offset, buffer }
    match line with
    | .error e => (.error e, r)
    | .ok line =>
      if (Utf8.decode? line).isNone then (.error .invalidText, r)
      else if line.isEmpty then (.ok none, r)
      else (.ok (some (trimEnd line)), r)

end Reader

namespace Writer

/-- What a writer does to the files; what it did before the host refused stays done. -/
abbrev Run := EStateM HostError (Directory × Writer)

/-- Hands bytes to the host, which takes all of them or none. -/
def hand (xs : List UInt8) : Run Unit := fun (d, w) =>
  if xs.isEmpty then .ok () (d, w)
  else match d.ask (.write w.place w.offset) with
    | .error e => .error e (d, w)
    | .ok () =>
      .ok () (d.writeAt w.place w.offset xs, { w with offset := w.offset + xs.length })

def flush : Run Unit := do
  hand (← get).2.held
  modify fun (d, w) => (d, { w with held := [] })

/-- Takes bytes.  They are held back, unless they are a block or more; what is held back
    already is handed over first if there is no room for them. -/
def take (xs : List UInt8) : Run Unit := do
  if blockSize < (← get).2.held.length + xs.length then flush
  if blockSize ≤ xs.length then hand xs
  else modify fun (d, w) => (d, { w with held := w.held ++ xs })

def writeLine (text : List UInt8) : Run Unit := do
  take text
  take [Reader.lineFeed]
  flush

/-- The outcome for the files and for the writer. -/
def outcome (act : Run Unit) (d : Directory) (w : Writer) :
    Except HostError Unit × Directory × Writer :=
  match act (d, w) with
  | .ok () (d, w) => (.ok (), d, w)
  | .error e (d, w) => (.error e, d, w)

end Writer

inductive OpenFile where
  | reader (r : Reader)
  | writer (w : Writer)
  deriving Repr

/-- The files opened so far, by handle; closed ones leave a gap. -/
structure FileTable where
  entries : Array (Option OpenFile) := #[]

namespace FileTable

/-- Adds a file and gives its handle. -/
def insert (file : OpenFile) (t : FileTable) : Word × FileTable :=
  (UInt32.ofNat t.entries.size, ⟨t.entries.push (some file)⟩)

/-- The position that a handle stands for, unless it is negative. -/
def position? (handle : Word) : Option Nat :=
  if handle.signed < 0 then none else some handle.toNat

def get? (t : FileTable) (handle : Word) : Option OpenFile :=
  (position? handle).bind fun i => (t.entries[i]?).join

def reader? (t : FileTable) (handle : Word) : Option Reader :=
  match t.get? handle with
  | some (.reader r) => some r
  | _ => none

def writer? (t : FileTable) (handle : Word) : Option Writer :=
  match t.get? handle with
  | some (.writer w) => some w
  | _ => none

def set (t : FileTable) (handle : Word) (entry : Option OpenFile) : FileTable :=
  ⟨t.entries.setIfInBounds handle.toNat entry⟩

def openCount (t : FileTable) : Nat := t.entries.countP Option.isSome

end FileTable

end ObjectMachine
