/-
  ObjectMachine/Proofs/IdealMemory.lean
  =====================================
  **Memories without addresses** — what a memory means once it is forgotten where its
  objects lie.

  In an ideal memory objects have names that never change, and a word is either raw or the
  name of an object.  A placement gives names their addresses, and `Shows` says that a
  memory is what an ideal memory looks like under a placement.  A collection changes the
  placement only; two machines with heaps of different sizes show the same ideal memory
  under two placements.

  Names without an address are those of objects that have been reclaimed.  `Shows` asks
  every word that it looks at to have a meaning, so nothing that is left refers to them.
-/
import ObjectMachine.Memory.Basic
import ObjectMachine.Proofs.GraphPreservation

namespace ObjectMachine

/-! ### Values and placements -/

/-- A word, apart from where objects lie. -/
inductive Value where
  | raw (w : Word)
  | object (id : Nat)
  deriving DecidableEq

/-- The addresses of the objects that have one. -/
abbrev Placement := Nat → Option Ref

/-- The word that a value is. -/
def Placement.word? (η : Placement) : Value → Option Word
  | .raw w => some w
  | .object id => (η id).map Ref.word

@[simp] theorem Placement.word?_raw (η : Placement) (w : Word) : η.word? (.raw w) = some w := rfl

theorem Placement.word?_object {η : Placement} {id : Nat} {r : Ref} (h : η id = some r) :
    η.word? (.object id) = some r.word := by
  rw [Placement.word?, h]
  rfl

theorem Placement.word?_object_eq_some {η : Placement} {id : Nat} {w : Word}
    (h : η.word? (.object id) = some w) : η id = some ⟨w⟩ := by
  obtain ⟨r, found, rfl⟩ := Option.map_eq_some_iff.1 h
  exact found

/-- What an object holds. -/
inductive Content where
  | fields (values : List Value)
  | bytes (xs : List UInt8)

namespace Content

def kind : Content → ObjectKind
  | fields _ => .pointers
  | bytes _ => .bytes

def length : Content → Nat
  | fields values => values.length
  | bytes xs => xs.length

/-- The values in the fields; an object of bytes has none. -/
def values : Content → List Value
  | fields values => values
  | bytes _ => []

/-- Length of the object in bytes, header included. -/
def extent : Content → Nat
  | fields values => 11 + values.length * 4
  | bytes xs => 11 + xs.length

theorem header_le_extent (c : Content) : 11 ≤ c.extent := by
  cases c <;> exact Nat.le_add_right _ _

theorem objectBytes_eq (c : Content) {size : Word} (h : size.toNat = c.length) :
    c.kind.objectBytes size = c.extent := by
  cases c <;> simp [kind, extent, ObjectKind.objectBytes, ObjectKind.payloadBytes, h, length]

end Content

/-- An object: its class and what it holds. -/
structure Entity where
  cls : Value
  content : Content

/-- The bytes at an address are those of an object. -/
structure ShowsObject (b : Bytes) (η : Placement) (r : Ref) (o : Entity) : Prop where
  header : ∃ size c, Header.read? b r = some ⟨o.content.kind, size, .normal c⟩ ∧
    size.toNat = o.content.length ∧ η.word? o.cls = some c.word
  fields : ∀ (i : Nat) v, o.content.values[i]? = some v →
    ∃ w, η.word? v = some w ∧ b.word? (fieldOffset r i) = some w
  payload : ∀ xs, o.content = .bytes xs → ∀ i < xs.length, b[payloadOffset r i]? = xs[i]?

/-! ### Memories -/

/-- A memory whose objects have names instead of addresses.  Names from `next` on are
    unused. -/
structure IdealMemory where
  store : Nat → Entity
  next : Nat
  classes : List Nat
  dictionaries : List Nat
  /-- The stack, from the bottom up. -/
  cells : List Value
  bp : Word
  /-- Where the open frames start, innermost first, as offsets in the stack. -/
  bases : List Nat
  stackSize : Nat
  code : CodeArena
  pc : CodeAddress
  methods : Array Method
  constants : ConstantPool

/-- The bytes that all objects with names below `next` take together. -/
def volume (store : Nat → Entity) (next : Nat) : Nat :=
  ((List.range next).map fun id => (store id).content.extent).sum

theorem volume_congr {store store' : Nat → Entity} {next : Nat}
    (h : ∀ id < next, (store' id).content.extent = (store id).content.extent) :
    volume store' next = volume store next := by
  unfold volume
  rw [List.map_congr_left fun id mem => h id (List.mem_range.1 mem)]

theorem volume_succ (store : Nat → Entity) (next : Nat) :
    volume store (next + 1) = volume store next + (store next).content.extent := by
  simp [volume, List.range_succ]

/-- The heap holds the objects that have an address, each apart from the others. -/
structure SemiSpaces.Shows (s : SemiSpaces) (η : Placement) (store : Nat → Entity) (next : Nat) :
    Prop where
  sound : s.Sound
  named : ∀ id r, η id = some r → id < next
  low : ∀ id r, η id = some r → s.activeStart ≤ r.offset 0
  high : ∀ id r, η id = some r → r.offset (store id).content.extent ≤ s.top
  object : ∀ id r, η id = some r → ShowsObject s.bytes η r (store id)
  apart : ∀ id id' r r', η id = some r → η id' = some r' → id ≠ id' →
    r.offset (store id).content.extent ≤ r'.offset 0 ∨
      r'.offset (store id').content.extent ≤ r.offset 0
  compact : s.used ≤ volume store next

/-- The stack holds the cells. -/
structure FrameStack.Shows (s : FrameStack) (η : Placement) (cells : List Value) (bp : Word)
    (size : Nat) : Prop where
  size_eq : s.bytes.size = size
  sp_eq : s.sp = 4 * cells.length
  bp_eq : s.bp = bp
  cell : ∀ (k : Nat) v, cells[k]? = some v →
    ∃ w, η.word? v = some w ∧ s.bytes.word? (4 * k) = some w

/-- **Showing.**  The memory is the ideal one with its objects where the placement says.
    The journal and the statistics have no part in this. -/
structure Memory.Shows (m : Memory) (A : IdealMemory) (η : Placement) : Prop where
  heap : m.space.Shows η A.store A.next
  stack : m.stack.Shows η A.cells A.bp A.stackSize
  classes : A.classes.map η = m.classes.toList.map some
  dictionaries : A.dictionaries.map η = m.dictionaries.toList.map some
  code : m.code = A.code
  pc : m.pc = A.pc
  methods : m.methods = A.methods
  constants : m.constants = A.constants

namespace IdealMemory

/-! ### Frames -/

/-- Following the links from `bp` finds the frames with these bases, innermost first. -/
inductive Framed (cells : List Value) : Word → List Nat → Prop where
  | none : Framed cells noFrame []
  | frame {bp link returnTo : Word} {bases : List Nat} {k : Nat} (open_ : bp ≠ noFrame)
      (base : bp.toNat = 4 * k) (link_cell : cells[k]? = some (.raw link))
      (return_cell : cells[k + 1]? = some (.raw returnTo)) (outer : Framed cells link bases)
      (above : ∀ b ∈ bases, b + 8 ≤ bp.toNat) : Framed cells bp (bp.toNat :: bases)

/-- Whether the cell at a position is a link or a return address. -/
def Control (bases : List Nat) (k : Nat) : Prop := ∃ b ∈ bases, 4 * k = b ∨ 4 * k = b + 4

instance (bases : List Nat) (k : Nat) : Decidable (Control bases k) :=
  inferInstanceAs (Decidable (∃ b ∈ bases, 4 * k = b ∨ 4 * k = b + 4))

/-! ### What may stand where -/

variable (harmless : Word → Prop) (A : IdealMemory)

/-- What a program can have in its hands: a word that never is an address, or an object
    that is in no table. -/
def Plain : Value → Prop
  | .raw w => harmless w
  | .object id => id < A.next ∧ id ∉ A.classes ∧ id ∉ A.dictionaries

/-- Nothing, or an entry of a table. -/
def Entry (table : List Nat) (v : Value) : Prop :=
  v = .raw Ref.null.word ∨ ∃ id ∈ table, v = .object id

/-- The fields of a class. -/
def ClassLayout (c : Content) : Prop :=
  ∃ name superclass metaclass size methods,
    c = .fields [.raw name, superclass, metaclass, .raw size, methods] ∧
      Entry A.classes superclass ∧ Entry A.classes metaclass ∧ Entry A.dictionaries methods

/-- The fields of a method dictionary. -/
def DictionaryLayout (c : Content) : Prop :=
  ∃ words : List Word, c = .fields (words.map .raw) ∧ ∀ w ∈ words, w.toNat < A.methods.size

/-- **Validity.**  Classes and dictionaries have their layouts, every class slot leads to a
    class, and whatever else a program can reach is plain. -/
structure Valid : Prop where
  stack_addressable : A.stackSize < wordLimit - 1
  classes_lt : ∀ id ∈ A.classes, id < A.next
  dictionaries_lt : ∀ id ∈ A.dictionaries, id < A.next
  tables_apart : ∀ id ∈ A.classes, id ∉ A.dictionaries
  cls : ∀ id < A.next, Entry A.classes (A.store id).cls
  class_layout : ∀ id ∈ A.classes, A.ClassLayout (A.store id).content
  dictionary_layout : ∀ id ∈ A.dictionaries, A.DictionaryLayout (A.store id).content
  fields : ∀ id < A.next, id ∉ A.classes → id ∉ A.dictionaries →
    ∀ v ∈ (A.store id).content.values, A.Plain harmless v
  framed : Framed A.cells A.bp A.bases
  live : ∀ (k : Nat) v, A.cells[k]? = some v → ¬Control A.bases k → A.Plain harmless v

end IdealMemory

end ObjectMachine
