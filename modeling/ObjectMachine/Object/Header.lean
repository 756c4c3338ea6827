/-
  ObjectMachine/Object/Header.lean
  ================================
  **Object headers** — the eleven bytes in front of every object.

      byte  0       marker, always F0
      byte  1       kind: 01 references, 02 bytes
      byte  2       state: AA normal, BB forwarded
      bytes 3 … 6   size, in references or in bytes
      bytes 7 … 10  class of a normal object, new address of a forwarded one

  The last word has two meanings, told apart by the state byte: once an object has
  been moved its old place no longer needs a class and says where it went.
-/
import ObjectMachine.Address

namespace ObjectMachine

/-- What an object's payload consists of. -/
inductive ObjectKind where
  /-- `size` references. -/
  | pointers
  /-- `size` raw bytes. -/
  | bytes
  deriving DecidableEq, Repr

namespace ObjectKind

/-- The byte of a kind. -/
def byte : ObjectKind → UInt8
  | .pointers => 0x01
  | .bytes => 0x02

/-- The kind of a byte. -/
def ofByte? (x : UInt8) : Option ObjectKind :=
  if x = 0x01 then some .pointers else if x = 0x02 then some .bytes else none

/-- Length of the payload of an object of `size` elements. -/
def payloadBytes (kind : ObjectKind) (size : Word) : Nat :=
  match kind with
  | .pointers => size.toNat * 4
  | .bytes => size.toNat

/-- Length of an object of `size` elements, header included. -/
def objectBytes (kind : ObjectKind) (size : Word) : Nat := 11 + kind.payloadBytes size

end ObjectKind

/-- What the last word of a header means. -/
inductive HeaderState where
  | normal (classRef : Ref)
  | forwarded (target : Ref)
  deriving DecidableEq, Repr

/-- A header, decoded. -/
structure Header where
  kind : ObjectKind
  size : Word
  state : HeaderState
  deriving DecidableEq, Repr

namespace Header

/-- First byte of every header. -/
def marker : UInt8 := 0xF0

/-- Offset of the state byte. -/
def stateOffset : Nat := 2

/-- Offset of the class or forwarding word. -/
def classOffset : Nat := 7

/-- Class of a normal object. -/
def classRef? (h : Header) : Option Ref :=
  match h.state with
  | .normal c => some c
  | .forwarded _ => none

/-- New address of a forwarded object. -/
def forwarding? (h : Header) : Option Ref :=
  match h.state with
  | .normal _ => none
  | .forwarded target => some target

/-- Length of the object's payload. -/
def payloadBytes (h : Header) : Nat := h.kind.payloadBytes h.size

/-- Length of the whole object. -/
def objectBytes (h : Header) : Nat := h.kind.objectBytes h.size

theorem objectBytes_pos (h : Header) : 0 < h.objectBytes := by
  simp only [objectBytes, ObjectKind.objectBytes]
  omega

/-! ### Codec -/

/-- The byte of a state. -/
def stateByte : HeaderState → UInt8
  | .normal _ => 0xAA
  | .forwarded _ => 0xBB

/-- The word of a state. -/
def stateWord : HeaderState → Word
  | .normal c => c.word
  | .forwarded target => target.word

/-- The state of a state byte and word. -/
def state? (x : UInt8) (w : Word) : Option HeaderState :=
  if x = 0xAA then some (.normal ⟨w⟩) else if x = 0xBB then some (.forwarded ⟨w⟩) else none

/-- The eleven bytes of a header. -/
def encode (h : Header) : List UInt8 :=
  marker :: h.kind.byte :: stateByte h.state :: (h.size.bytes ++ (stateWord h.state).bytes)

/-- The header that eleven bytes stand for. -/
def decode? : List UInt8 → Option Header
  | [m, k, s, s0, s1, s2, s3, c0, c1, c2, c3] =>
    if m = marker then do
      let kind ← ObjectKind.ofByte? k
      let state ← state? s (Word.ofBytes c0 c1 c2 c3)
      return ⟨kind, Word.ofBytes s0 s1 s2 s3, state⟩
    else none
  | _ => none

@[simp] theorem length_encode (h : Header) : h.encode.length = 11 := rfl

/-- Decoding gives back the header that was encoded. -/
theorem decode?_encode (h : Header) : decode? h.encode = some h := by
  obtain ⟨kind, size, state⟩ := h
  cases kind <;> cases state <;>
    simp [encode, decode?, Word.bytes, stateByte, stateWord, ObjectKind.byte, ObjectKind.ofByte?,
      state?, Word.ofBytes_bytes]

/-! ### Headers in a buffer -/

/-- The header stored at an address, if there is a well-formed one. -/
def read? (b : Bytes) (addr : Ref) : Option Header :=
  if addr.isNull then none else (b.read? (addr.offset 0) 11).bind decode?

/-- Stores a header at an address, if it fits. -/
def write? (h : Header) (b : Bytes) (addr : Ref) : Option Bytes :=
  b.write? (addr.offset 0) h.encode

/-- Turns the object at an address into a stub that says where it went.  Kind and
    size stay readable. -/
def forward? (b : Bytes) (addr target : Ref) : Option Bytes := do
  let b ← b.write? (addr.offset stateOffset) [stateByte (.forwarded target)]
  b.writeWord? (addr.offset classOffset) target.word

/-- Overwrites only the class word of the object at an address. -/
def setClass? (b : Bytes) (addr classRef : Ref) : Option Bytes :=
  b.writeWord? (addr.offset classOffset) classRef.word

/-! ### Diagnostics -/

/-- How diagnostics show a header. -/
def debugText (h : Header) : String :=
  let kind := match h.kind with
    | .pointers => "PointerIndexed"
    | .bytes => "ByteIndexed"
  let state := match h.state with
    | .normal c => "Normal \x7b class: " ++ c.debugText ++ " \x7d"
    | .forwarded target => "Forwarded \x7b to: " ++ target.debugText ++ " \x7d"
  "Header \x7b kind: " ++ kind ++ ", size: " ++ Nat.repr h.size.toNat ++ ", state: " ++ state ++
    " \x7d"

end Header

end ObjectMachine
