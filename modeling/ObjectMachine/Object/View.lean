/-
  ObjectMachine/Object/View.lean
  ==============================
  **Objects in a buffer** — an address together with the header found there.

  A view exists only where a whole object does, so its fields and its payload can be
  read without further checks.  It describes the buffer that it was taken from: after
  an allocation, which may move objects, it is a description of the past.
-/
import ObjectMachine.Object.Header

namespace ObjectMachine

/-- Buffer offset of field `index` of the object at an address. -/
def fieldOffset (addr : Ref) (index : Nat) : Nat := addr.offset (11 + index * 4)

/-- Buffer offset of payload byte `index` of the object at an address. -/
def payloadOffset (addr : Ref) (index : Nat) : Nat := addr.offset (11 + index)

/-- An object found in a buffer. -/
structure ObjectView where
  heap : Bytes
  addr : Ref
  header : Header

namespace ObjectView

/-- The object at an address, if all of it lies in the buffer. -/
def at? (b : Bytes) (addr : Ref) : Option ObjectView :=
  match Header.read? b addr with
  | some header => if addr.offset header.objectBytes ≤ b.size then some ⟨b, addr, header⟩ else none
  | none => none

/-- Class of a normal object. -/
def classRef? (v : ObjectView) : Option Ref := v.header.classRef?

/-- Whether the payload consists of references. -/
def hasPointers (v : ObjectView) : Bool := v.header.kind == .pointers

/-- The word in field `index` of an object with references. -/
def fieldWord? (v : ObjectView) (index : Nat) : Option Word :=
  if v.hasPointers && index < v.header.size.toNat then v.heap.word? (fieldOffset v.addr index)
  else none

/-- The reference in field `index`. -/
def field? (v : ObjectView) (index : Nat) : Option Ref := (v.fieldWord? index).map Ref.mk

/-- The words of all fields, in order; none for an object of bytes. -/
def fieldWords (v : ObjectView) : List Word :=
  if v.hasPointers then (List.range v.header.size.toNat).filterMap v.fieldWord? else []

/-- The payload. -/
def payload (v : ObjectView) : List UInt8 :=
  v.heap.slice (payloadOffset v.addr 0) v.header.payloadBytes

/-- The word that an object of four or more bytes starts with. -/
def intValue? (v : ObjectView) : Option Word :=
  if v.header.kind == .bytes && 4 ≤ v.header.size.toNat then v.heap.word? (payloadOffset v.addr 0)
  else none

/-- How diagnostics show an object. -/
def debugText (v : ObjectView) : String :=
  "ObjectView \x7b at: " ++ v.addr.debugText ++ ", header: " ++ v.header.debugText ++ " \x7d"

end ObjectView

/-! ### Changing an object

These take the buffer and the header that a view found; the object is known to fit. -/

namespace Object

/-- Whether an object with this header has a field `index`. -/
def hasField (header : Header) (index : Nat) : Bool :=
  header.kind == .pointers && index < header.size.toNat

/-- Stores a word in field `index`. -/
def setField (b : Bytes) (addr : Ref) (index : Nat) (value : Word) : Bytes :=
  b.overwrite (fieldOffset addr index) value.bytes

/-- Stores words in the fields from `index` on.  A word that has no field is dropped, and
    indices wrap around. -/
def setFields (header : Header) (addr : Ref) : (index : Word) → List Word → Bytes → Bytes
  | _, [], b => b
  | index, value :: rest, b =>
    setFields header addr (index + 1) rest
      (if hasField header index.toNat then setField b addr index.toNat value else b)

/-- Lays bytes over the payload from `start` on. -/
def setPayload (b : Bytes) (addr : Ref) (start : Nat) (xs : List UInt8) : Bytes :=
  b.overwrite (payloadOffset addr start) xs

/-- Stores a class word. -/
def setClass (b : Bytes) (addr classRef : Ref) : Bytes :=
  b.overwrite (addr.offset Header.classOffset) classRef.word.bytes

/-- The header that the object has once `setClass` has stored a class. -/
def withClass (header : Header) (classRef : Ref) : Header :=
  { header with state := .normal classRef }

end Object

end ObjectMachine
