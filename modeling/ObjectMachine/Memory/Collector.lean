/-
  ObjectMachine/Memory/Collector.lean
  ===================================
  **The copying collector** — moves every object that the roots lead to into the other
  half of the heap and forgets the rest.

  Roots are moved first.  Then a scan cursor walks over what has been moved and moves
  what it refers to, until it has caught up with the copy cursor.  An object that has
  been moved leaves a forwarding stub behind, so it is moved once.

  Not every field is a reference.  How an object was reached decides how it is traced:
  objects from the class table have the layout of classes, objects from the dictionary
  table hold method indices and are not traced at all, and of all others every field
  is.  A reference that leads to no object is reported and left as it is.
-/
import ObjectMachine.Journal
import ObjectMachine.Memory.SemiSpaces
import ObjectMachine.Object.Class

namespace ObjectMachine

/-- Which fields of a moved object are traced. -/
inductive Shape where
  /-- Every field. -/
  | ordinary
  /-- The reference fields of a class. -/
  | classObject
  /-- No field. -/
  | dictionary
  deriving DecidableEq, Repr

/-- How an object that a root leads to is traced. -/
def RootKind.shape : RootKind → Shape
  | .classTable => .classObject
  | .dictionaryTable => .dictionary
  | .stack => .ordinary

/-- What past collections did. -/
structure CollectionStats where
  cycles : Nat := 0
  lastCopied : Nat := 0
  lastReclaimed : Nat := 0
  totalReclaimed : Nat := 0
  deriving DecidableEq, Repr

/-- A collection in progress. -/
structure Evacuation where
  bytes : Bytes
  /-- The half that is being left: its start and its allocation cursor. -/
  fromStart : Nat
  fromTop : Nat
  /-- End of the half that is being filled. -/
  toEnd : Nat
  /-- Copy cursor. -/
  free : Nat
  /-- Shapes other than ordinary, by new address. -/
  shapes : List (Nat × Shape)
  journal : Journal

namespace Evacuation

/-- A step of a collection. -/
abbrev Run := StateT Evacuation (Except Fault)

/-- Reports an event. -/
def note (event : Event) : Run Unit := modify fun e => { e with journal := e.journal.note event }

/-- Header of an object that lies wholly in the allocated part of the half that is
    being left. -/
def sourceHeader? (e : Evacuation) (addr : Ref) : Option Header :=
  let start := addr.offset 0
  if addr.isNull || start < e.fromStart || e.fromTop ≤ start then none
  else match Header.read? e.bytes addr with
    | some header => if start + header.objectBytes ≤ e.fromTop then some header else none
    | none => none

/-- The word at a buffer offset. -/
def load (offset : Nat) : Run Word := fun e =>
  match e.bytes.word? offset with
  | some w => .ok (w, e)
  | none => .error .outOfBuffer

/-- Lays bytes over the buffer. -/
def store (offset : Nat) (xs : List UInt8) : Run Unit := fun e =>
  if offset + xs.length ≤ e.bytes.size then
    .ok ((), { e with bytes := e.bytes.overwrite offset xs })
  else .error .outOfBuffer

/-- Copies the `length` bytes at an address to the copy cursor, leaves a stub behind and
    moves the cursor on. -/
def copyOut (addr : Ref) (length : Nat) (shape : Shape) : Run Ref := do
  let target := (← get).free
  let some content := (← get).bytes.read? (addr.offset 0) length | throw .outOfBuffer
  store target content
  let new := Ref.ofOffset target
  store (addr.offset Header.stateOffset) [Header.stateByte (.forwarded new)]
  store (addr.offset Header.classOffset) new.word.bytes
  modify fun e => { e with
    free := target + length
    shapes := if shape = .ordinary then e.shapes else (target, shape) :: e.shapes }
  return new

/-- The new address of the object at an address, which is moved unless it has been
    already; `none` if there is no object or no room for it. -/
def evacuate (addr : Ref) (shape : Shape) : Run (Option Ref) := do
  match (← get).sourceHeader? addr with
  | none => return none
  | some header =>
    match header.forwarding? with
    | some target => return some target
    | none =>
      if (← get).toEnd < (← get).free + header.objectBytes then
        note (.spaceExhausted addr)
        return none
      else return some (← copyOut addr header.objectBytes shape)

/-- Moves what a root leads to and gives the root's new value.  A stack word that leads
    to no object is an integer; a table entry that does not is reported. -/
def forwardRoot (kind : RootKind) (slot : Ref) : Run Ref := do
  if slot.isNull then return slot
  match ← evacuate slot kind.shape with
  | some target => return target
  | none =>
    if kind ≠ .stack then note (.rootNotObject kind slot)
    return slot

/-- Moves what a field of a moved object leads to and updates the field. -/
def forwardField (owner : Ref) (index : Nat) (shape : Shape) : Run Unit := do
  let target : Ref := ⟨← load (fieldOffset owner index)⟩
  if target.isNull then return
  match ← evacuate target shape with
  | some new => store (fieldOffset owner index) new.word.bytes
  | none => note (.fieldNotObject index owner target)

/-- Traces `count` fields from `start` on as ordinary ones. -/
def forwardFields (owner : Ref) (start : Nat) : (count : Nat) → Run Unit
  | 0 => pure ()
  | count + 1 => do
    forwardField owner start .ordinary
    forwardFields owner (start + 1) count

/-- Traces the reference fields of a class. -/
def forwardClass (owner : Ref) : Run Unit := do
  forwardField owner ClassField.superclass .classObject
  forwardField owner ClassField.metaclass .classObject
  forwardField owner ClassField.methods .dictionary

/-- Moves the class of a moved object and updates its header. -/
def forwardClassSlot (addr : Ref) (header : Header) : Run Unit := do
  match header.classRef?.bind Ref.nonNull? with
  | none => return
  | some classRef =>
    match ← evacuate classRef .classObject with
    | some new => store (addr.offset Header.classOffset) new.word.bytes
    | none => note (.classNotObject addr classRef)

/-- How the object moved to an offset is traced. -/
def shapeAt (e : Evacuation) (offset : Nat) : Shape := (e.shapes.lookup offset).getD .ordinary

/-- Traces a moved object by its shape. -/
def forwardPayload (offset : Nat) (header : Header) : Run Unit := do
  match (← get).shapeAt offset with
  | .dictionary => return
  | .classObject => forwardClass (Ref.ofOffset offset)
  | .ordinary => forwardFields (Ref.ofOffset offset) 0 header.size.toNat

/-- Traces the moved objects from `cursor` on, up to the copy cursor, which never passes
    `toEnd`. -/
def scan (toEnd cursor : Nat) : Run Unit := do
  if _inside : cursor < toEnd then
    if cursor < (← get).free then
      match Header.read? (← get).bytes (Ref.ofOffset cursor) with
      | none => note (.invalidHeader (Ref.ofOffset cursor))
      | some header =>
        forwardClassSlot (Ref.ofOffset cursor) header
        if header.kind = .pointers then forwardPayload cursor header
        scan toEnd (cursor + header.objectBytes)
termination_by toEnd - cursor
decreasing_by
  have := header.objectBytes_pos
  omega

/-- The start of a collection of a heap. -/
def ofSpaces (space : SemiSpaces) (journal : Journal) : Evacuation :=
  { bytes := space.bytes
    fromStart := space.activeStart
    fromTop := space.top
    toEnd := space.inactiveStart + space.half
    free := space.inactiveStart
    shapes := []
    journal }

end Evacuation

/-- A heap with the record of its collections. -/
structure Collected (ρ : Type) where
  space : SemiSpaces
  stats : CollectionStats
  journal : Journal
  /-- What visiting the roots gave: the roots with their new values. -/
  roots : ρ

/-- Collects a heap.  `visitRoots` passes every root to the function that it is given and
    collects the new values. -/
def collect {ρ : Type} (space : SemiSpaces) (stats : CollectionStats) (journal : Journal)
    (visitRoots : (RootKind → Ref → Evacuation.Run Ref) → Evacuation.Run ρ) :
    Except Fault (Collected ρ) := do
  let start := space.inactiveStart
  let (roots, e) ← (visitRoots Evacuation.forwardRoot).run (Evacuation.ofSpaces space journal)
  let ((), e) ← (Evacuation.scan e.toEnd start).run e
  let copied := e.free - start
  let reclaimed := space.used - copied
  let flipped ← { space with bytes := e.bytes }.flip e.free
  return {
    space := flipped
    stats := {
      cycles := stats.cycles + 1
      lastCopied := copied
      lastReclaimed := reclaimed
      totalReclaimed := stats.totalReclaimed + reclaimed }
    journal := e.journal.note (.collected (stats.cycles + 1) copied reclaimed)
    roots }

end ObjectMachine
