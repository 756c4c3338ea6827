/-
  ObjectMachine/Proofs/ClassHierarchy.lean
  ========================================
  **The class hierarchy is well-founded** — whatever classes are made, and whatever fails on the
  way.

  A history is a machine that has been made and used, together with the records of its classes.
  An operation puts on record what it makes if it succeeds.  If it fails, perhaps halfway
  through, it may have collected, added a constant and left an object behind that is in no table,
  but the classes are the same.
-/
import ObjectMachine.Proofs.ClassTables
import ObjectMachine.Proofs.References

namespace ObjectMachine

open IdealMemory

/-! ### Histories -/

namespace Operation

/-- Makes objects, classes or methods, or collects. -/
def makes : Operation → Bool
  | assemble _ | storeCode _ | enter _ _ | advance _ => false
  | _ => true

/-- What an operation puts on record if it succeeds. -/
def records (known : KnownClasses) : Operation → List ClassRecord
  | newClass name _ superclass => [⟨name, superclass, known.metaclass⟩]
  | defineClass name _ => [⟨name, known.object, known.metaclass⟩]
  | _ => []

/-- What an operation has put on record. -/
def registers (op : Operation) (m : Machine) : List ClassRecord :=
  if op.succeeds m then op.records m.known else []

end Operation

/-- **Histories.**  A machine that has been made and then used, calls that failed included, and
    the records of its classes. -/
inductive Machine.History (setup : Machine.Setup) : Machine → List ClassRecord → Prop where
  | new {m : Machine} (made : Machine.new setup = .ok m) : History setup m libraryRecords
  | operation {m : Machine} {records : List ClassRecord} (op : Operation)
      (before : History setup m records) (makes : op.makes = true) (allowed : op.Allowed m) :
      History setup (op.after m) (records ++ op.registers m)

/-! ### One operation -/

section Known

variable {α : Type} {known : KnownClasses}

theorem known_onMemory (act : Memory.Run α) :
    Preserves (fun m : Machine => m.known = known) (Machine.onMemory act) := by
  intro m same
  rw [Lockstep.endState_onMemory]
  exact same

theorem known_newClass (name : String) (fields : Word) (superclass : Option ClassId) :
    Preserves (fun m : Machine => m.known = known) (Machine.newClass name fields superclass) :=
  (known_onMemory _).bind fun _ => .get_bind fun _ => (known_onMemory _).bind fun _ =>
    (known_onMemory _).bind fun _ => (known_onMemory _).bind fun _ => (known_onMemory _).bind fun _ =>
      (known_onMemory _).bind fun _ => (known_onMemory _).bind fun _ => (known_onMemory _).bind fun _ =>
        .pure _

theorem known_newArray (length : Word) :
    Preserves (fun m : Machine => m.known = known) (Machine.newArray length) :=
  .get_bind fun _ => (known_onMemory _).bind fun _ => (known_onMemory _).bind fun _ => .pure _

theorem known_fillPayload (addr : Ref) (xs : List UInt8) :
    Preserves (fun m : Machine => m.known = known) (Machine.fillPayload addr xs) := by
  refine (known_onMemory _).bind fun header => ?_
  split
  · exact known_onMemory _
  · exact .throw _

/-- These operations record no class as one of the library. -/
theorem Operation.known_after (op : Operation) (makes : op.makes = true) (m : Machine) :
    (op.after m).known = m.known := by
  have kept : Preserves (fun m' : Machine => m'.known = m.known) op.run := by
    cases op with
    | assemble | storeCode | enter | advance => cases makes
    | newObject id size =>
      exact ((known_onMemory _).bind fun _ => .get_bind fun _ => (known_onMemory _).bind fun _ =>
        .pure _).bind fun _ => .pure _
    | newInteger value =>
      exact (Preserves.get_bind fun _ => (known_onMemory _).bind fun _ =>
        (known_fillPayload _ _).bind fun _ => (known_onMemory _).bind fun _ => .pure _).bind fun _ =>
          .pure _
    | newString bytes =>
      exact (Preserves.get_bind fun _ => (known_onMemory _).bind fun _ =>
        (known_fillPayload _ _).bind fun _ => (known_onMemory _).bind fun _ => .pure _).bind fun _ =>
          .pure _
    | newArray length => exact (known_newArray length).bind fun _ => .pure _
    | newClass name fields superclass =>
      exact (known_newClass name fields superclass).bind fun _ => .pure _
    | defineClass name fields =>
      exact (Preserves.get_bind fun _ => known_newClass name fields _).bind fun _ => .pure _
    | newMethod selector entry locals =>
      have added : Preserves (fun m' : Machine => m'.known = m.known)
          (Machine.newMethod selector entry locals) :=
        known_onMemory (Memory.addMethod ⟨selector, entry, locals⟩)
      exact added.bind fun _ => .pure _
    | setMethods id methods =>
      have dictionary : Preserves (fun m' : Machine => m'.known = m.known)
          (Machine.newDictionary methods) :=
        (known_newArray _).bind fun _ => (known_onMemory _).bind fun _ =>
          (known_onMemory _).bind fun _ => (known_onMemory _).bind fun _ => .pure _
      exact dictionary.bind fun _ => (known_onMemory _).bind fun _ =>
        (known_onMemory _).bind fun _ => .pure _
    | collect => exact known_onMemory _
  have ends : op.after m = endState (op.run m) := by
    unfold Operation.after
    cases op.run m <;> rfl
  rw [ends]
  exact kept m rfl

end Known

namespace Operation

variable {limit : Unit → Nat} {w : World Unit} {m : Machine} {records : List ClassRecord}

/-- Superclasses of classes on record are in the table. -/
def Linked (w : World Unit) (records : List ClassRecord) : Prop :=
  ∀ r ∈ records, ∀ id, r.superclass = some id → id.index.toNat < w.memory.classes.length

theorem linked_newClass {name : String} {superclass metaclass : Option ClassId} {sup : Value}
    (found : w.memory.classValue? superclass = some sup) :
    Linked w [⟨name, superclass, metaclass⟩] := by
  intro r mem id above
  obtain rfl := List.mem_singleton.1 mem
  dsimp only at above
  rw [above] at found
  obtain ⟨cid, entry, -⟩ := Option.map_eq_some_iff.1 found
  exact (List.getElem?_eq_some_iff.1 entry).1

/-- **One operation** puts what it makes on record; if it fails, the classes are the same. -/
theorem lockstep_records (op : Operation) (described : w.memory.Describes records)
    (makes : op.makes = true)
    (small : ∀ id methods, op = .setMethods id methods →
      ∀ y ∈ methods, y.toNat < w.memory.methods.size) :
    Lockstep limit w (fun _ => op.run)
      (fun w' _ => w'.memory.Describes (records ++ op.records w.host.known) ∧
        Linked w (op.records w.host.known))
      fun _ A => w.memory.SameClasses A := by
  refine Lockstep.of_valid fun valid => ?_
  have grown : ∀ A, w.memory.Grown A → w.memory.SameClasses A := by
    intro A h
    cases h with
    | same => exact .refl _
    | object o => exact .allocate valid o
  have same : ∀ A, w.memory.SameClasses A →
      A.Describes (records ++ []) ∧ Linked w [] := by
    intro A h
    rw [List.append_nil]
    exact ⟨described.congr h, nofun⟩
  have made : ∀ {o w'} {r : Unit → Ref}, w.Made o w' r →
      w'.memory.Describes (records ++ []) ∧ Linked w [] := by
    intro o w' r h
    exact same _ (grown _ h.grown)
  have failed : ∀ {p : Prop}, p → ∀ (e : MachineError) A, w.memory.SameClasses A →
      w.memory.SameClasses A := fun _ _ _ h => h
  -- what makes objects leaves the classes alone; only two operations add to the records
  cases op with
  | assemble | storeCode | enter | advance => cases makes
  | newObject id size =>
    refine (Lockstep.newObject id size fun _ => .refl _).bind fun w' r h => ?_
    obtain ⟨cls, -, h⟩ := h
    exact Lockstep.of_pure (made h)
  | newInteger value =>
    refine (Lockstep.newInteger value fun _ => grown).bind fun w' r h => ?_
    obtain ⟨cls, -, h⟩ := h
    exact Lockstep.of_pure (made h)
  | newString bytes =>
    refine (Lockstep.newString bytes fun _ => grown).bind fun w' r h => ?_
    obtain ⟨cls, -, h⟩ := h
    exact Lockstep.of_pure (made h)
  | newArray length =>
    refine (Lockstep.newArray length (fun _ _ => .refl _) fun _ _ => .refl _).bind fun w' r h => ?_
    obtain ⟨cls, -, h⟩ := h
    exact Lockstep.of_pure (made h)
  | newClass name fields superclass =>
    refine (Lockstep.newClass name fields superclass failed failed).bind fun w' r h => ?_
    obtain ⟨sup, met, hsup, hmet, eq, -, -⟩ := h
    exact Lockstep.of_pure ⟨eq ▸ described.newClass valid hsup hmet, linked_newClass hsup⟩
  | defineClass name fields =>
    refine (Lockstep.defineClass name fields failed failed).bind fun w' r h => ?_
    obtain ⟨sup, met, hsup, hmet, eq, -, -⟩ := h
    exact Lockstep.of_pure ⟨eq ▸ described.newClass valid hsup hmet, linked_newClass hsup⟩
  | newMethod selector entry locals =>
    refine (Lockstep.addMethod ⟨selector, entry, locals⟩).bind fun w' r h => ?_
    obtain ⟨-, rfl⟩ := h
    exact Lockstep.of_pure (same _ ⟨rfl, fun _ _ => rfl, List.prefix_refl _⟩)
  | setMethods id methods =>
    refine (Lockstep.setMethods id methods (small id methods rfl) failed failed).mono ?_ fun _ _ h => h
    rintro w' - ⟨cls, cid, name, sup, met, size, old, entry, content, eq, -⟩
    refine ⟨?_, nofun⟩
    rw [eq, show records ++ Operation.records w.host.known (.setMethods id methods) = records from
      List.append_nil _]
    exact described.newMethods valid (List.mem_of_getElem? entry) content cls _
  | collect =>
    refine Lockstep.collect.mono ?_ fun _ _ h => h
    rintro w' - ⟨eq, -⟩
    rw [eq]
    exact same _ (.refl _)

theorem hierarchy_append (op : Operation) {known : KnownClasses} (h : Hierarchy records)
    (metaclass : known.metaclass = some ⟨0⟩)
    (linked : ∀ r ∈ op.records known, ∀ id, r.superclass = some id → id.index.toNat < records.length) :
    Hierarchy (records ++ op.records known) := by
  cases op with
  | newClass | defineClass => exact h.append metaclass (linked _ (List.mem_singleton_self _))
  | _ => exact (List.append_nil records).symm ▸ h

end Operation

namespace Machine

/-- **On record.**  The classes of a machine are those on record, and form a hierarchy. -/
structure OnRecord (limit : Unit → Nat) (m : Machine) (records : List ClassRecord) : Prop where
  world : ∃ w : World Unit, (w.Holds limit fun _ => m) ∧ w.memory.Describes records
  hierarchy : Hierarchy records
  metaclass : m.known.metaclass = some ⟨0⟩
  object : m.known.object = some ⟨1⟩

variable {limit : Unit → Nat} {setup : Setup} {m : Machine} {records : List ClassRecord}

theorem onRecord_of_new (made : Machine.new setup = .ok m) :
    OnRecord (fun _ => bufferSize setup.settings.heapSize) m libraryRecords := by
  have new : ∀ _ : Unit, Machine.new (setup.withHeap setup.settings.heapSize) = .ok m :=
    fun _ => made
  obtain ⟨w, holds, reached⟩ := World.holds_new new
  have known : m.known = Stage.ready.known := (holds.known ()).trans reached.known
  refine ⟨⟨w, holds, reached.described⟩, .of_library, ?_, ?_⟩ <;> rw [known] <;> rfl

/-- **One operation** leaves the classes on record; one that fails leaves the same classes. -/
theorem OnRecord.step (h : OnRecord limit m records) (op : Operation) (makes : op.makes = true)
    (allowed : op.Allowed m) : OnRecord limit (op.after m) (records ++ op.registers m) ∧
      (op.succeeds m = false → ∃ move, ClassesMoved move m.memory (op.after m).memory) := by
  obtain ⟨w, holds, described⟩ := h.world
  have known : w.host.known = m.known := (holds.known ()).symm
  have small : ∀ id methods, op = .setMethods id methods →
      ∀ y ∈ methods, y.toNat < w.memory.methods.size := by
    rintro id methods rfl
    rw [← (holds.shows_ ()).methods]
    exact allowed
  obtain ⟨w', holds', ended⟩ :=
    Operation.holds_after (op.lockstep_records described makes small _ holds)
  have kept := op.known_after makes m
  have metaclass : (op.after m).known.metaclass = some ⟨0⟩ := by rw [kept, h.metaclass]
  have object : (op.after m).known.object = some ⟨1⟩ := by rw [kept, h.object]
  unfold Operation.registers
  cases succeeded : op.succeeds m with
  | true =>
    rw [succeeded, known] at ended
    obtain ⟨described', linked⟩ := ended
    refine ⟨⟨⟨w', holds', described'⟩, op.hierarchy_append h.hierarchy h.metaclass ?_, metaclass,
      object⟩, nofun⟩
    rw [← described.length]
    exact linked
  | false =>
    rw [succeeded] at ended
    have same : w.memory.SameClasses w'.memory := ended
    refine ⟨⟨⟨w', holds', ?_⟩, ?_, metaclass, object⟩, fun _ => ?_⟩
    · exact (List.append_nil records).symm ▸ described.congr same
    · exact (List.append_nil records).symm ▸ h.hierarchy
    · exact ⟨_, classesMoved (holds.shows_ ()) (holds'.shows_ ()) holds.valid same⟩

/-- **Every history** leaves the classes on record. -/
theorem History.onRecord (history : History setup m records) :
    OnRecord (fun _ => bufferSize setup.settings.heapSize) m records := by
  induction history with
  | new made => exact onRecord_of_new made
  | operation op _ makes allowed ih => exact (ih.step op makes allowed).1

theorem OnRecord.recorded (h : OnRecord limit m records) : Recorded m.memory records := by
  obtain ⟨w, holds, described⟩ := h.world
  exact recorded_of_describes (holds.shows_ ()) described

/-- Metaclass is the class and the metaclass of every class. -/
theorem OnRecord.metaclass_eq (h : OnRecord limit m records) : ∃ a, m.memory.classRef ⟨0⟩ = .ok a ∧
    ∀ b ∈ m.memory.classes, ∃ c, classView m.memory b = .ok c ∧ c.metaclass = a ∧
      receiverClass m.memory b = .ok a := by
  have recorded := h.recorded
  have entry : ∀ (k : Nat) b, m.memory.classes[k]? = some b → ∃ c cls, classView m.memory b = .ok c ∧
      receiverClass m.memory b = .ok cls ∧ m.memory.classRef ⟨0⟩ = .ok c.metaclass ∧
      m.memory.classRef ⟨0⟩ = .ok cls := by
    intro k b entry
    obtain ⟨r, record⟩ := recorded.record_of_entry entry
    obtain ⟨c, cls, view, class_, -, atMeta, atCls, -⟩ := recorded.entry k b r entry record
    rw [h.hierarchy.metaclass r (List.mem_of_getElem? record)] at atMeta atCls
    exact ⟨c, cls, view, class_, atMeta, atCls⟩
  have inside : 0 < m.memory.classes.size := by
    have := h.hierarchy.seven_le
    have := recorded.size
    omega
  obtain ⟨c, -, -, -, first, -⟩ := entry 0 _ (Array.getElem?_eq_getElem inside)
  refine ⟨c.metaclass, first, fun b mem => ?_⟩
  obtain ⟨k, position⟩ := Array.mem_iff_getElem?.1 mem
  obtain ⟨c', cls, view, class_, atMeta, atCls⟩ := entry k b position
  have sameMeta : c.metaclass = c'.metaclass := Except.ok.inj (first.symm.trans atMeta)
  have sameCls : c.metaclass = cls := Except.ok.inj (first.symm.trans atCls)
  exact ⟨c', view, sameMeta.symm, sameCls ▸ class_⟩

/-- **The class hierarchy stays well-founded.**  After any history, every class is on record, and:

    * the superclasses of a class lead to null in no more steps than there are classes, and the
      last of them is Object, or a class that was made without a superclass;
    * Metaclass, wherever it is now, is the metaclass and the class of every class;
    * a name stands for the first class on record with this name, or for none (the constants
      being so many that each has an index of its own);
    * an operation that fails leaves the same classes, moved at most. -/
theorem class_hierarchy_stays_well_founded (history : History setup m records) :
    m.memory.classes.size = records.length ∧
    (∀ a ∈ m.memory.classes, ∃ n < m.memory.classes.size, ancestor m.memory a (n + 1) = Ref.null ∧
      ∃ (k : Nat) (root : ClassRecord), m.memory.classes[k]? = some (ancestor m.memory a n) ∧
        records[k]? = some root ∧ root.superclass = none ∧
        (m.known.object = some ⟨UInt32.ofNat k⟩ ∨ libraryRecords.length ≤ k)) ∧
    (∃ id metaclass, m.known.metaclass = some id ∧ m.memory.classRef id = .ok metaclass ∧
      ∀ a ∈ m.memory.classes, ∃ c, classView m.memory a = .ok c ∧ c.metaclass = metaclass ∧
        receiverClass m.memory a = .ok metaclass) ∧
    (m.memory.constants.entries.size ≤ wordLimit → ∀ name,
      (∀ id, classNamed? m.memory name = some id ↔
        (∃ r, records[id.index.toNat]? = some r ∧ r.name = name) ∧
          ∀ j < id.index.toNat, ∀ r, records[j]? = some r → r.name ≠ name) ∧
      (classNamed? m.memory name = none ↔ ∀ r ∈ records, r.name ≠ name)) ∧
    ∀ op : Operation, op.makes = true → op.Allowed m → op.succeeds m = false →
      ∃ move, ClassesMoved move m.memory (op.after m).memory := by
  have onRecord := history.onRecord
  have recorded := onRecord.recorded
  obtain ⟨metaclass, found, all⟩ := onRecord.metaclass_eq
  refine ⟨recorded.size, fun a mem => ?_, ⟨⟨0⟩, metaclass, onRecord.metaclass, found, all⟩,
    fun few name => ⟨recorded.classNamed?_eq_some_iff few name,
      recorded.classNamed?_eq_none_iff few name⟩,
    fun op makes allowed => (onRecord.step op makes allowed).2⟩
  obtain ⟨k, entry⟩ := Array.mem_iff_getElem?.1 mem
  have inside := (Array.getElem?_eq_some_iff.1 entry).1
  obtain ⟨n, le, null, j, root, record, none, top⟩ := recorded.chain_ends onRecord.hierarchy entry
  have lower := onRecord.hierarchy.classRank_lt (recorded.size ▸ inside)
  refine ⟨n, by rw [recorded.size]; omega, null, j, root, top, record, none, ?_⟩
  rcases onRecord.hierarchy.root_cases record none with rfl | later
  · exact Or.inl onRecord.object
  · exact Or.inr later

/-- Two classes more, one of them without a superclass, and a collection. -/
theorem modestSetup_hierarchy : ∃ m, Machine.new modestSetup = .ok m ∧
    ∀ a ∈ (([.newClass "Shape" 0 none, .newClass "Circle" 1 (some ⟨7⟩), .collect].foldl
      (fun m (op : Operation) => op.after m) m).memory).classes,
      ∃ n, ancestor ([.newClass "Shape" 0 none, .newClass "Circle" 1 (some ⟨7⟩), .collect].foldl
        (fun m (op : Operation) => op.after m) m).memory a (n + 1) = Ref.null := by
  obtain ⟨m, made⟩ := Machine.exists_new (show modestSetup.settings.validate = .ok () from rfl)
    (by decide) (by decide)
  refine ⟨m, made, fun a mem => ?_⟩
  obtain ⟨-, chains, -⟩ := class_hierarchy_stays_well_founded
    (.operation .collect (.operation (.newClass "Circle" 1 (some ⟨7⟩))
      (.operation (.newClass "Shape" 0 none) (.new made) rfl trivial) rfl trivial) rfl trivial)
  obtain ⟨n, -, null, -⟩ := chains a mem
  exact ⟨n, null⟩

end Machine

end ObjectMachine
