/-
  ObjectMachine/Proofs/ObjectGraph.lean
  =====================================
  **The object graph** — what the bytes of a heap mean to a collector.

  A heap together with its root slots and a set of object addresses is an `ObjectGraph`.
  The words that refer to other objects stand in the *slots* of an object: the class word
  of its header and those fields that its shape makes references.  All other bytes of an
  object are raw.  Each slot comes with the shape that the collector gives to what it
  finds there.

  `WellFormed lo hi` is what the collector relies on.  A word in a slot names an object of
  the graph or is *stray*, that is, no address between `lo` and `hi`.  The bounds are a
  parameter because two of them matter: those of the allocated part, outside of which the
  collector looks at nothing, and those of the whole buffer, outside of which a word stays
  harmless however often the halves are exchanged.
-/
import ObjectMachine.Memory.Collector
import ObjectMachine.Proofs.ByteRanges
import Mathlib.Algebra.BigOperators.Group.Finset.Basic
import Mathlib.Algebra.GroupWithZero.Nat
import Mathlib.Data.Finset.Union
import Mathlib.Order.Interval.Finset.Nat

namespace ObjectMachine

/-! ### Root slots -/

/-- The words that a collection starts from, in the order in which they are visited. -/
structure RootSlots where
  classes : List Ref
  dictionaries : List Ref
  stack : List Ref

namespace RootSlots

/-- Passes every slot to `act` and puts the answers in their places. -/
def visit (roots : RootSlots) (act : RootKind → Ref → Evacuation.Run Ref) :
    Evacuation.Run RootSlots := do
  let classes ← roots.classes.mapM (act .classTable)
  let dictionaries ← roots.dictionaries.mapM (act .dictionaryTable)
  let stack ← roots.stack.mapM (act .stack)
  return ⟨classes, dictionaries, stack⟩

def map (f : Ref → Ref) (roots : RootSlots) : RootSlots :=
  ⟨roots.classes.map f, roots.dictionaries.map f, roots.stack.map f⟩

def all (roots : RootSlots) : List Ref := roots.classes ++ roots.dictionaries ++ roots.stack

/-- How an object is traced: the tables decide, the class table first. -/
def shapeOf (roots : RootSlots) (a : Ref) : Shape :=
  if a ∈ roots.classes then .classObject
  else if a ∈ roots.dictionaries then .dictionary
  else .ordinary

end RootSlots

/-! ### Slots -/

/-- The slots of an object: where they are, counted from the start of the object, and the
    shape that the collector gives to what it finds in them. -/
def Shape.slots (shape : Shape) (header : Header) : List (Nat × Shape) :=
  (Header.classOffset, .classObject) ::
    if header.kind = .pointers then
      match shape with
      | .ordinary => (List.range header.size.toNat).map fun i => (11 + i * 4, .ordinary)
      | .classObject =>
        [(11 + ClassField.superclass * 4, .classObject), (11 + ClassField.metaclass * 4, .classObject),
         (11 + ClassField.methods * 4, .dictionary)]
      | .dictionary => []
    else []

namespace Shape

theorem slots_aligned {shape : Shape} {header : Header} {slot : Nat × Shape}
    (h : slot ∈ shape.slots header) : 7 ≤ slot.1 ∧ slot.1 % 4 = 3 := by
  unfold slots at h
  rw [List.mem_cons] at h
  rcases h with rfl | h
  · exact ⟨Nat.le_refl 7, rfl⟩
  · split at h
    · cases shape with
      | ordinary =>
        obtain ⟨i, -, rfl⟩ := List.mem_map.1 h
        exact ⟨by omega, by omega⟩
      | classObject =>
        simp only [List.mem_cons, List.not_mem_nil, or_false] at h
        rcases h with rfl | rfl | rfl <;> exact ⟨by decide, by decide⟩
      | dictionary => cases h
    · cases h

/-- Slots lie inside their object, as long as a class has the fields of a class. -/
theorem slots_inside {shape : Shape} {header : Header} {slot : Nat × Shape}
    (h : slot ∈ shape.slots header)
    (room : shape = .classObject → ClassField.count ≤ header.size.toNat) :
    slot.1 + 4 ≤ header.objectBytes := by
  unfold slots at h
  rw [List.mem_cons] at h
  simp only [Header.objectBytes, ObjectKind.objectBytes]
  rcases h with rfl | h
  · simp only [Header.classOffset]
    omega
  · split at h
    · rename_i kind
      rw [kind, ObjectKind.payloadBytes]
      cases shape with
      | ordinary =>
        obtain ⟨i, hi, rfl⟩ := List.mem_map.1 h
        have := List.mem_range.1 hi
        dsimp only
        omega
      | classObject =>
        have enough := room rfl
        simp only [List.mem_cons, List.not_mem_nil, or_false, ClassField.superclass,
          ClassField.metaclass, ClassField.methods] at h
        simp only [ClassField.count] at enough
        rcases h with rfl | rfl | rfl <;> dsimp only <;> omega
      | dictionary => cases h
    · cases h

end Shape

/-! ### Graphs -/

/-- A heap, the bounds of its allocated part, its root slots and a set of addresses. -/
structure ObjectGraph where
  bytes : Bytes
  start : Nat
  top : Nat
  roots : RootSlots
  objects : Set Ref

namespace ObjectGraph

variable (g : ObjectGraph)

def header? (a : Ref) : Option Header := Header.read? g.bytes a

/-- Number of bytes that the object at an address takes. -/
def extent (a : Ref) : Nat :=
  match g.header? a with
  | some header => header.objectBytes
  | none => 0

def slots (a : Ref) : List (Nat × Shape) :=
  match g.header? a with
  | some header => (g.roots.shapeOf a).slots header
  | none => []

/-- The word in a slot, or anywhere else in an object. -/
def word? (a : Ref) (offset : Nat) : Option Word := g.bytes.word? (a.offset offset)

/-- The objects that the roots lead to, by way of slots. -/
inductive Reachable : Ref → Prop where
  | root {a : Ref} (root : a ∈ g.roots.all) (object : a ∈ g.objects) : Reachable a
  | slot {a c : Ref} {slot : Nat × Shape} (from_ : Reachable a) (slot_mem : slot ∈ g.slots a)
      (word : g.word? a slot.1 = some c.word) (object : c ∈ g.objects) : Reachable c

theorem Reachable.object {g : ObjectGraph} {a : Ref} (h : g.Reachable a) : a ∈ g.objects := by
  cases h with
  | root _ object => exact object
  | slot _ _ _ object => exact object

/-- A word that is no address between two bounds. -/
def Stray (lo hi : Nat) (a : Ref) : Prop := ¬(lo ≤ a.offset 0 ∧ a.offset 0 < hi)

/-- What may stand in a slot. -/
def Allowed (lo hi : Nat) : Shape → Ref → Prop
  | .classObject, a => a = Ref.null ∨ a ∈ g.roots.classes
  | .dictionary, a => a = Ref.null ∨ a ∈ g.roots.dictionaries
  | .ordinary, a => a ∈ g.objects ∨ Stray lo hi a

/-- **Well-formedness.**  The allocated part lies between the bounds; the objects are
    normal, lie in the allocated part and do not overlap; roots and slots hold what they may; objects of the class table have the
    layout of classes; no object is in both tables. -/
structure WellFormed (lo hi : Nat) : Prop where
  lo_le : lo ≤ g.start
  le_hi : g.top ≤ hi
  normal : ∀ a ∈ g.objects, ∃ header classRef,
    g.header? a = some header ∧ header.state = .normal classRef
  low : ∀ a ∈ g.objects, g.start ≤ a.offset 0
  high : ∀ a ∈ g.objects, a.offset (g.extent a) ≤ g.top
  apart : ∀ a ∈ g.objects, ∀ c ∈ g.objects, a ≠ c →
    a.offset (g.extent a) ≤ c.offset 0 ∨ c.offset (g.extent c) ≤ a.offset 0
  root : ∀ a ∈ g.roots.all, a ∈ g.objects ∨ Stray lo hi a
  slot : ∀ a ∈ g.objects, ∀ slot ∈ g.slots a, ∀ w, g.word? a slot.1 = some w →
    g.Allowed lo hi slot.2 ⟨w⟩
  class_layout : ∀ a ∈ g.objects, a ∈ g.roots.classes → ∃ header,
    g.header? a = some header ∧ header.kind = .pointers ∧ ClassField.count ≤ header.size.toNat
  tables_apart : ∀ a ∈ g.objects, a ∈ g.roots.classes → a ∉ g.roots.dictionaries

variable {g}

theorem extent_eq {a : Ref} {header : Header} (h : g.header? a = some header) :
    g.extent a = header.objectBytes := by
  rw [extent, h]

theorem slots_eq {a : Ref} {header : Header} (h : g.header? a = some header) :
    g.slots a = (g.roots.shapeOf a).slots header := by
  rw [slots, h]

theorem offset_eq_add (a : Ref) (n : Nat) : a.offset n = a.offset 0 + n := rfl

/-- An address that is one of an object is not null. -/
theorem ne_null_of_header? {a : Ref} {header : Header} (h : g.header? a = some header) :
    a ≠ Ref.null := by
  rintro rfl
  cases h

namespace WellFormed

variable {lo hi : Nat} (wf : g.WellFormed lo hi)
include wf

theorem header {a : Ref} (ha : a ∈ g.objects) : ∃ kind size classRef,
    g.header? a = some ⟨kind, size, .normal classRef⟩ := by
  obtain ⟨⟨kind, size, state⟩, classRef, found, rfl⟩ := wf.normal a ha
  exact ⟨kind, size, classRef, found⟩

theorem null_not_object : Ref.null ∉ g.objects := by
  intro object
  obtain ⟨kind, size, classRef, found⟩ := wf.header object
  exact ne_null_of_header? found rfl

theorem header_le_extent {a : Ref} (ha : a ∈ g.objects) : 11 ≤ g.extent a := by
  obtain ⟨kind, size, classRef, found⟩ := wf.header ha
  rw [extent_eq found, Header.objectBytes, ObjectKind.objectBytes]
  omega

theorem slot_inside {a : Ref} (ha : a ∈ g.objects) {slot : Nat × Shape} (hs : slot ∈ g.slots a) :
    slot.1 + 4 ≤ g.extent a := by
  obtain ⟨kind, size, classRef, found⟩ := wf.header ha
  rw [slots_eq found] at hs
  rw [extent_eq found]
  refine Shape.slots_inside hs ?_
  intro shape
  have table : a ∈ g.roots.classes := by
    unfold RootSlots.shapeOf at shape
    split at shape
    · assumption
    · split at shape <;> cases shape
  obtain ⟨header, found', -, enough⟩ := wf.class_layout a ha table
  rw [found] at found'
  cases found'
  exact enough

theorem slot_aligned {a : Ref} (ha : a ∈ g.objects) {slot : Nat × Shape} (hs : slot ∈ g.slots a) :
    7 ≤ slot.1 ∧ slot.1 % 4 = 3 := by
  obtain ⟨kind, size, classRef, found⟩ := wf.header ha
  rw [slots_eq found] at hs
  exact Shape.slots_aligned hs

theorem stray {a : Ref} (h : Stray lo hi a) : Stray g.start g.top a := by
  have := wf.lo_le
  have := wf.le_hi
  unfold Stray at *
  omega

/-- **Objects fit together.**  Objects that do not overlap take no more room than there is. -/
theorem sum_extent_le (moved : List Ref) (nodup : moved.Nodup) (objects : ∀ a ∈ moved, a ∈ g.objects) :
    (moved.map g.extent).sum ≤ g.top - g.start := by
  classical
  -- each object is an interval of offsets, and the intervals are disjoint
  let interval (a : Ref) : Finset Nat := Finset.Ico (a.offset 0) (a.offset (g.extent a))
  have card_interval : ∀ a, (interval a).card = g.extent a := by
    intro a
    rw [Nat.card_Ico, offset_eq_add a (g.extent a)]
    omega
  have disjoint : ∀ a ∈ moved.toFinset, ∀ c ∈ moved.toFinset, a ≠ c →
      Disjoint (interval a) (interval c) := by
    intro a ha c hc ne
    rw [Finset.disjoint_left]
    intro i hi hi'
    have hi := Finset.mem_Ico.1 hi
    have hi' := Finset.mem_Ico.1 hi'
    have := wf.apart a (objects a (List.mem_toFinset.1 ha)) c (objects c (List.mem_toFinset.1 hc)) ne
    omega
  have inside : moved.toFinset.biUnion interval ⊆ Finset.Ico g.start g.top := by
    intro i hi
    obtain ⟨a, ha, hi⟩ := Finset.mem_biUnion.1 hi
    have ha := objects a (List.mem_toFinset.1 ha)
    have hi := Finset.mem_Ico.1 hi
    have low := wf.low a ha
    have high := wf.high a ha
    exact Finset.mem_Ico.2 ⟨by omega, by omega⟩
  calc (moved.map g.extent).sum
      = ∑ a ∈ moved.toFinset, g.extent a := (List.sum_toFinset g.extent nodup).symm
    _ = ∑ a ∈ moved.toFinset, (interval a).card := by simp only [card_interval]
    _ = (moved.toFinset.biUnion interval).card := (Finset.card_biUnion disjoint).symm
    _ ≤ (Finset.Ico g.start g.top).card := Finset.card_le_card inside
    _ = g.top - g.start := Nat.card_Ico _ _

end WellFormed

/-- **A graph whose objects are listed** with their headers is well formed if each of them is in
    order by itself. -/
theorem wellFormed_of_listed {lo hi : Nat} {b : Bytes} {start top : Nat} {roots : RootSlots} {objects : Set Ref}
    (listed : List (Ref × Header)) (lo_le : lo ≤ start) (le_hi : top ≤ hi)
    (complete : ∀ a ∈ objects, ∃ header, (a, header) ∈ listed)
    (header : ∀ entry ∈ listed, Header.read? b entry.1 = some entry.2 ∧
      ∃ c, entry.2.state = .normal c)
    (inside : ∀ entry ∈ listed, start ≤ entry.1.offset 0 ∧ entry.1.offset entry.2.objectBytes ≤ top)
    (apart : ∀ entry ∈ listed, ∀ other ∈ listed, entry.1 ≠ other.1 →
      entry.1.offset entry.2.objectBytes ≤ other.1.offset 0 ∨
        other.1.offset other.2.objectBytes ≤ entry.1.offset 0)
    (root : ∀ a ∈ roots.all, a ∈ objects ∨ Stray lo hi a)
    (slot : ∀ entry ∈ listed, ∀ slot ∈ (roots.shapeOf entry.1).slots entry.2,
      ∃ w, b.word? (entry.1.offset slot.1) = some w ∧
        Allowed ⟨b, start, top, roots, objects⟩ lo hi slot.2 ⟨w⟩)
    (table : ∀ entry ∈ listed, entry.1 ∈ roots.classes → entry.2.kind = .pointers ∧
      ClassField.count ≤ entry.2.size.toNat ∧ entry.1 ∉ roots.dictionaries) :
    (⟨b, start, top, roots, objects⟩ : ObjectGraph).WellFormed lo hi := by
  have known : ∀ a ∈ objects, ∃ header, (a, header) ∈ listed ∧
      header? ⟨b, start, top, roots, objects⟩ a = some header := by
    intro a mem
    obtain ⟨found, entry⟩ := complete a mem
    exact ⟨found, entry, (header _ entry).1⟩
  refine
    { lo_le := lo_le
      le_hi := le_hi
      normal := ?normal
      low := ?low
      high := ?high
      apart := ?apart
      root := root
      slot := ?slot
      class_layout := ?class_layout
      tables_apart := ?tables_apart }
  case normal =>
    intro a mem
    obtain ⟨_, entry, found⟩ := known a mem
    obtain ⟨c, normal⟩ := (header _ entry).2
    exact ⟨_, c, found, normal⟩
  case low =>
    intro a mem
    obtain ⟨_, entry, -⟩ := known a mem
    exact (inside _ entry).1
  case high =>
    intro a mem
    obtain ⟨_, entry, found⟩ := known a mem
    rw [extent_eq found]
    exact (inside _ entry).2
  case apart =>
    intro a mem c mem' ne
    obtain ⟨_, entry, found⟩ := known a mem
    obtain ⟨_, entry', found'⟩ := known c mem'
    rw [extent_eq found, extent_eq found']
    exact apart _ entry _ entry' ne
  case slot =>
    intro a mem here slots w word
    obtain ⟨_, entry, found⟩ := known a mem
    rw [slots_eq found] at slots
    obtain ⟨_, word', allowed⟩ := slot _ entry here slots
    cases word'.symm.trans word
    exact allowed
  case class_layout =>
    intro a mem class_
    obtain ⟨_, entry, found⟩ := known a mem
    obtain ⟨pointers, enough, -⟩ := table _ entry class_
    exact ⟨_, found, pointers, enough⟩
  case tables_apart =>
    intro a mem class_
    obtain ⟨_, entry, -⟩ := known a mem
    exact (table _ entry class_).2.2

end ObjectGraph

end ObjectMachine
