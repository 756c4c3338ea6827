/-
  ObjectMachine/Object/Class.lean
  ===============================
  **Class objects** — objects with references whose first five fields have a meaning.

  Two of the fields are raw integers, the constant index of the name and the number
  of fields of an instance; the other three are references.
-/
import ObjectMachine.Object.View

namespace ObjectMachine

namespace ClassField

/-- Constant index of the class's name. -/
def name : Nat := 0
/-- The superclass. -/
def superclass : Nat := 1
/-- The class of the class. -/
def metaclass : Nat := 2
/-- Number of fields of an instance. -/
def objectSize : Nat := 3
/-- The method dictionary. -/
def methods : Nat := 4
/-- Number of fields of a class object. -/
def count : Nat := 5

end ClassField

/-- A class object, decoded. -/
structure ClassView where
  addr : Ref
  name : Word
  superclass : Ref
  metaclass : Ref
  objectSize : Word
  methods : Ref
  deriving DecidableEq, Repr

/-- The class that an object is, if it has references and enough of them. -/
def ClassView.ofObject? (v : ObjectView) : Option ClassView :=
  if v.hasPointers && ClassField.count ≤ v.header.size.toNat then
    let raw (index : Nat) : Word := (v.fieldWord? index).getD Ref.null.word
    some {
      addr := v.addr
      name := raw ClassField.name
      superclass := ⟨raw ClassField.superclass⟩
      metaclass := ⟨raw ClassField.metaclass⟩
      objectSize := raw ClassField.objectSize
      methods := ⟨raw ClassField.methods⟩ }
  else none

/-- An entry of the method table. -/
structure Method where
  selector : String
  entry : CodeAddress
  locals : Word
  deriving DecidableEq, Repr

end ObjectMachine
