/-
  ObjectMachine/Proofs/ClassRecords.lean
  ======================================
  **What is on record about classes** — the class table, apart from where its classes lie.

  A record says what a class has been made with: its name, its superclass and its metaclass,
  the latter two as indices in the class table.  A memory is described by a list of
  records, one for each entry of the table.  Whatever leaves the classes themselves alone leaves
  the description as it is, and new constants do, since none is ever removed.

  The name of a class is the index of a constant.  There are more constants than indices only
  after four thousand million of them have been added, so names are on record up to then.
-/
import ObjectMachine.Proofs.IdealValidity

namespace ObjectMachine

/-- What a class has been made with. -/
structure ClassRecord where
  name : String
  superclass : Option ClassId
  metaclass : Option ClassId
  deriving DecidableEq

/-! ### Constants -/

namespace ConstantPool

variable (c : Constant) (pool : ConstantPool)

/-- Adding a constant removes none. -/
theorem entries_add : pool.entries.toList <+: (pool.add c).2.entries.toList := by
  unfold add
  split
  · exact List.prefix_refl _
  · rw [Array.toList_push]
    exact List.prefix_append _ _

theorem size_add : (pool.add c).2.entries.size ≤ pool.entries.size + 1 := by
  unfold add
  split
  · exact Nat.le_succ _
  · rw [Array.size_push]

/-- The index of a constant leads to it, unless there are too many. -/
theorem getElem?_add (few : (pool.add c).2.entries.size ≤ wordLimit) :
    (pool.add c).2.entries[(pool.add c).1.toNat]? = some c := by
  unfold add at few ⊢
  split
  · rename_i index found
    obtain ⟨inside, here, -⟩ := Array.findIdx?_eq_some_iff_getElem.1 found
    rw [found] at few
    have small : (UInt32.ofNat index).toNat = index :=
      UInt32.toNat_ofNat_of_lt' (Nat.lt_of_lt_of_le inside few)
    dsimp only
    rw [small, Array.getElem?_eq_getElem inside, eq_of_beq here]
  · rename_i absent
    rw [absent] at few
    have size : (pool.entries.push c).size = pool.entries.size + 1 := Array.size_push c
    dsimp only at few ⊢
    have small : (UInt32.ofNat pool.entries.size).toNat = pool.entries.size :=
      UInt32.toNat_ofNat_of_lt' (show _ < wordLimit by omega)
    rw [small, Array.getElem?_push_size]

end ConstantPool

namespace IdealMemory

variable {A A' : IdealMemory} {records : List ClassRecord} {id : Nat}

/-! ### Classes that stay -/

/-- The classes are the same, and constants may have been added. -/
structure SameClasses (A A' : IdealMemory) : Prop where
  classes : A'.classes = A.classes
  store : ∀ id ∈ A.classes, A'.store id = A.store id
  constants : A.constants.entries.toList <+: A'.constants.entries.toList

theorem SameClasses.refl (A : IdealMemory) : A.SameClasses A :=
  ⟨rfl, fun _ _ => rfl, List.prefix_refl _⟩

theorem SameClasses.trans {A'' : IdealMemory} (h : A.SameClasses A') (h' : A'.SameClasses A'') :
    A.SameClasses A'' where
  classes := h'.classes.trans h.classes
  store id mem := (h'.store id (h.classes ▸ mem)).trans (h.store id mem)
  constants := h.constants.trans h'.constants

theorem SameClasses.allocate {harmless : Word → Prop} (valid : A.Valid harmless) (o : Entity) :
    A.SameClasses (A.allocate o) :=
  ⟨rfl, fun id mem => A.store_allocate_of_lt (valid.classes_lt id mem) o, List.prefix_refl _⟩

theorem SameClasses.addConstant (A : IdealMemory) (c : Constant) :
    A.SameClasses { A with constants := (A.constants.add c).2 } :=
  ⟨rfl, fun _ _ => rfl, A.constants.entries_add c⟩

theorem SameClasses.classValue? (h : A.SameClasses A') (c : Option ClassId) :
    A'.classValue? c = A.classValue? c := by
  cases c with
  | none => rfl
  | some id =>
    unfold IdealMemory.classValue?
    rw [h.classes]

/-! ### Records -/

/-- The object is the class on record. -/
def IsRecorded (A : IdealMemory) (id : Nat) (r : ClassRecord) : Prop :=
  ∃ name sup met size methods,
    A.classValue? r.superclass = some sup ∧ A.classValue? r.metaclass = some met ∧
      A.store id = ⟨met, .fields [.raw name, sup, met, .raw size, methods]⟩ ∧
      (A.constants.entries.size ≤ wordLimit →
        A.constants.entries[name.toNat]? = some (.text r.name))

theorem IsRecorded.congr {r : ClassRecord} (recorded : A.IsRecorded id r)
    (links : ∀ c v, A.classValue? c = some v → A'.classValue? c = some v)
    (store : A'.store id = A.store id)
    (constants : A.constants.entries.toList <+: A'.constants.entries.toList) :
    A'.IsRecorded id r := by
  obtain ⟨name, sup, met, size, methods, hsup, hmet, object, text⟩ := recorded
  refine ⟨name, sup, met, size, methods, links _ _ hsup, links _ _ hmet, store.trans object, ?_⟩
  intro few
  have fewer : A.constants.entries.size ≤ A'.constants.entries.size := constants.length_le
  have found := text (Nat.le_trans fewer few)
  obtain ⟨more, eq⟩ := constants
  have inside := (Array.getElem?_eq_some_iff.1 found).1
  rw [← Array.getElem?_toList] at found ⊢
  rw [← eq, List.getElem?_append_left (by rwa [Array.length_toList])]
  exact found

/-- **Described.**  Each entry of the class table is an object of its own, and the class on
    record. -/
structure Describes (A : IdealMemory) (records : List ClassRecord) : Prop where
  length : A.classes.length = records.length
  nodup : A.classes.Nodup
  recorded : ∀ (k : Nat) id r, A.classes[k]? = some id → records[k]? = some r → A.IsRecorded id r

theorem Describes.congr (h : A.Describes records) (same : A.SameClasses A') :
    A'.Describes records where
  length := by rw [same.classes, h.length]
  nodup := same.classes ▸ h.nodup
  recorded k id r entry record := by
    rw [same.classes] at entry
    refine (h.recorded k id r entry record).congr (fun c v found => ?_)
      (same.store id (List.mem_of_getElem? entry)) same.constants
    rw [same.classValue? c, found]

/-- Other methods for a class. -/
theorem Describes.setMethods {name size : Word} {sup met old : Value} (h : A.Describes records)
    (content : (A.store id).content = .fields [.raw name, sup, met, .raw size, old])
    (methods : Value) :
    (A.setContent id (.fields [.raw name, sup, met, .raw size, methods])).Describes records where
  length := h.length
  nodup := h.nodup
  recorded k id' r entry record := by
    have recorded := h.recorded k id' r entry record
    by_cases own : id' = id
    · subst own
      obtain ⟨name', sup', met', size', methods', hsup, hmet, object, text⟩ := recorded
      rw [object] at content
      cases content
      refine ⟨name, sup, met, size, methods, hsup, hmet, ?_, text⟩
      change Function.update A.store id' _ id' = _
      rw [Function.update_self, object]
    · exact recorded.congr (fun _ _ found => found) (Function.update_of_ne own _ _)
        (List.prefix_refl _)

/-- Other links for a class. -/
theorem Describes.setLinks {k : Nat} {name size : Word} {sup met sup' met' methods : Value}
    {superclass metaclass : Option ClassId} (h : A.Describes records)
    (entry : A.classes[k]? = some id)
    (content : (A.store id).content = .fields [.raw name, sup', met', .raw size, methods])
    (hsup : A.classValue? superclass = some sup) (hmet : A.classValue? metaclass = some met) :
    ((A.setContent id (.fields [.raw name, sup, met, .raw size, methods])).setCls id met).Describes
      (records.modify k fun r => { r with superclass := superclass, metaclass := metaclass }) where
  length := by
    rw [List.length_modify]
    exact h.length
  nodup := h.nodup
  recorded j id' r' entry' record := by
    rw [List.getElem?_modify] at record
    obtain ⟨r, found, changed⟩ := Option.map_eq_some_iff.1 record
    by_cases here : k = j
    · subst here
      rw [if_pos rfl] at changed
      subst changed
      obtain rfl : id = id' := Option.some.inj (entry.symm.trans entry')
      obtain ⟨name', _, _, _, _, -, -, object, text⟩ := h.recorded k id r entry found
      rw [object] at content
      cases content
      refine ⟨name, sup, met, size, methods, hsup, hmet, ?_, text⟩
      simp only [setCls, setContent, Function.update_self]
    · have other : id' ≠ id := by
        rintro rfl
        have inside := (List.getElem?_eq_some_iff.1 entry).1
        exact here ((List.getElem?_inj inside h.nodup).1 (entry.trans entry'.symm))
      rw [if_neg here] at changed
      subst changed
      refine (h.recorded j id' r entry' found).congr (fun _ _ found => found) ?_ (List.prefix_refl _)
      simp only [setCls, setContent, Function.update_of_ne other]

end IdealMemory

end ObjectMachine
