/-
  ObjectMachine/Proofs/References.lean
  ====================================
  **No stale references** — whatever is done with a machine, every reference that it keeps
  leads to an object or is no address at all.

  The operations are those that make objects, classes, methods and code, collections, and the
  steps of careful programs.  Any of them may collect in its middle, and any of them may
  fail; what it leaves behind is coherent all the same.
-/
import ObjectMachine.Proofs.StoredCode

namespace ObjectMachine

open IdealMemory ObjectGraph

/-! ### Coherence -/

/-- **Coherence.**  Every reference in the memory has its meaning among these objects: the
    entries of the tables, the class slots, the references of classes, the fields of other
    objects and the live words of the stack.  Classes have the layout of classes, and
    dictionaries hold indices of methods. -/
structure Memory.Coherent (m : Memory) (objects : Set Ref) : Prop where
  graph : (m.graph objects).WellFormed addressGuard m.space.bytes.size
  frames : ∃ bases, m.stack.chain = .ok ⟨bases, none⟩ ∧
    ∀ offset ∈ m.stack.liveOffsets ⟨bases, none⟩, ∃ w, m.stack.bytes.word? offset = some w
  classes : ∀ a ∈ m.classes, a ∈ objects ∧ ∃ header, m.header a = .ok header ∧
    header.kind = .pointers ∧ header.size.toNat = ClassField.count
  dictionaries : ∀ a ∈ m.dictionaries, a ∈ objects ∧ ∃ view, m.view a = .ok view ∧
    view.hasPointers = true ∧ ∀ w ∈ view.fieldWords, w.toNat < m.methods.size

theorem Memory.Shows.coherent {m : Memory} {A : IdealMemory} {η : Placement}
    {harmless : Word → Prop} (shows_ : m.Shows A η) (valid : A.Valid harmless)
    (stray : ∀ w, harmless w → Stray addressGuard m.space.bytes.size ⟨w⟩) :
    m.Coherent η.objects := by
  refine ⟨shows_.wellFormed valid stray, ⟨A.bases, shows_.chain valid, ?frames⟩, ?classes,
    ?dictionaries⟩
  case frames =>
    intro offset live
    obtain ⟨k, hk, -, rfl⟩ := (FrameStack.mem_liveOffsets shows_.stack _ _).1 live
    obtain ⟨w, -, word⟩ := shows_.stack.cell k _ (List.getElem?_eq_getElem hk)
    exact ⟨w, word⟩
  case classes =>
    intro a mem
    obtain ⟨id, registered, placed⟩ := named_of_mem shows_.classes (Array.mem_toList_iff.2 mem)
    obtain ⟨name, superclass, metaclass, size', methods, content, -⟩ :=
      valid.class_layout id registered
    obtain ⟨size, c, header, length, -⟩ := shows_.header_object placed
    rw [content] at header length
    exact ⟨⟨id, placed⟩, _, header, rfl, length⟩
  case dictionaries =>
    intro a mem
    obtain ⟨id, registered, placed⟩ := named_of_mem shows_.dictionaries (Array.mem_toList_iff.2 mem)
    obtain ⟨words, content, small⟩ := valid.dictionary_layout id registered
    obtain ⟨view, run, viewed⟩ := shows_.viewed placed
    refine ⟨⟨id, placed⟩, view, run, viewed.hasPointers content, ?_⟩
    intro w mem
    rw [viewed.fieldWords_eq content] at mem
    rw [shows_.methods]
    exact small w mem

/-! ### Operations -/

/-- What can be done with a machine from outside, one step of its program included. -/
inductive Operation where
  | newObject (id : ClassId) (size : Word)
  | newInteger (value : Word)
  | newString (bytes : List UInt8)
  | newArray (length : Word)
  | newClass (name : String) (fields : Word) (superclass : Option ClassId)
  | defineClass (name : String) (fields : Word)
  | newMethod (selector : String) (entry : CodeAddress) (locals : Word)
  | setMethods (id : ClassId) (methods : List Word)
  | collect
  | assemble (source : String)
  | storeCode (code : List UInt8)
  | enter (entry : CodeAddress) (locals : Word)
  /-- Carries out the instruction at the program counter. -/
  | advance (entryBase : Word)

namespace Operation

def run : Operation → Machine.Run Unit
  | newObject id size => do let _ ← Machine.newObject id size
  | newInteger value => do let _ ← Machine.newInteger value
  | newString bytes => do let _ ← Machine.newString bytes
  | newArray length => do let _ ← Machine.newArray length
  | newClass name fields superclass => do let _ ← Machine.newClass name fields superclass
  | defineClass name fields => do let _ ← Machine.defineClass name fields
  | newMethod selector entry locals => do let _ ← Machine.newMethod selector entry locals
  | setMethods id methods => Machine.setMethods id methods
  | collect => Memory.collect
  | assemble source => do let _ ← Machine.assemble source
  | storeCode code => do let _ ← Memory.storeCode code
  | enter entry locals => Machine.enter entry locals
  | advance entryBase => do let _ ← Machine.advance entryBase

/-- The machine after an operation, whether it succeeded or failed. -/
def after (op : Operation) (m : Machine) : Machine :=
  match op.run m with
  | .ok _ m' => m'
  | .error _ m' => m'

/-- Whether an operation succeeds. -/
def succeeds (op : Operation) (m : Machine) : Bool :=
  match op.run m with
  | .ok _ _ => true
  | .error _ _ => false

/-- A class gets methods that are there already, and programs are careful. -/
def Allowed (m : Machine) : Operation → Prop
  | setMethods _ methods => ∀ y ∈ methods, y.toNat < m.memory.methods.size
  | advance _ => ∀ i m', Machine.fetch m = .ok i m' → m.Careful i
  | _ => True

end Operation

/-- The machines that operations lead to. -/
inductive Machine.Reached (setup : Machine.Setup) : Machine → Prop where
  | new {m : Machine} (made : Machine.new setup = .ok m) : Reached setup m
  | operation {m : Machine} (op : Operation) (reached : Reached setup m) (allowed : op.Allowed m) :
      Reached setup (op.after m)

namespace Operation

variable {limit : Unit → Nat} {w : World Unit} {m : Machine}

/-- A machine has a world again, however an operation has ended. -/
theorem holds_after {op : Operation} {post : World Unit → Prop} {fail : IdealMemory → Prop}
    (h : Exhausted limit (fun _ => op.run) (fun _ => m) (fun _ A => fail A) ∨
      Succeeds limit (fun _ => op.run) (fun _ => m) (fun w _ => post w) ∨
      Fails limit (fun _ => op.run) (fun _ => m) fun _ A => fail A) :
    ∃ w : World Unit, (w.Holds limit fun _ => op.after m) ∧
      if op.succeeds m then post w else fail w.memory := by
  unfold after succeeds
  rcases h with exhausted | succeeds | fails
  · obtain ⟨⟨⟩, n, available, m', A, η, run, shows_, size, valid, failed⟩ := exhausted
    have run : op.run m = .error (.memory (.outOfMemory n available)) m' := run
    rw [run]
    exact ⟨⟨A, m'.host, fun _ => η⟩, ⟨fun _ => shows_, fun _ => size, fun _ => rfl, valid⟩, failed⟩
  · obtain ⟨w, a, m', run, holds, posted⟩ := succeeds
    have run : op.run m = .ok (a ()) (m' ()) := run ()
    rw [run]
    exact ⟨w, holds, posted⟩
  · obtain ⟨w, e, m', run, -, holds, failed⟩ := fails
    have run : op.run m = .error (e ()) (m' ()) := run ()
    rw [run]
    exact ⟨w, holds, failed ()⟩

/-- Giving up the result. -/
theorem lockstep_discard {α : Type} {x : Machine.Run α} {post : World Unit → (Unit → α) → Prop}
    (h : Lockstep limit w (fun _ => x) post fun _ _ => True) :
    Lockstep limit w (fun _ => do let _ ← x) (fun _ _ => True) fun _ _ => True :=
  h.bind fun _ _ _ => Lockstep.of_pure trivial

/-- **One operation.** -/
theorem exists_holds_after (op : Operation) (holds : w.Holds limit fun _ => m)
    (allowed : op.Allowed m) : ∃ w' : World Unit, w'.Holds limit fun _ => op.after m := by
  have failed : ∀ {p : Prop}, p → ∀ (_ : MachineError) (A : IdealMemory), w.memory.SameClasses A →
      True := fun _ _ _ _ => trivial
  suffices h : Exhausted limit (fun _ => op.run) (fun _ => m) (fun _ _ => True) ∨
      Succeeds limit (fun _ => op.run) (fun _ => m) (fun _ _ => True) ∨
      Fails limit (fun _ => op.run) (fun _ => m) fun _ _ => True by
    obtain ⟨w', holds', -⟩ := holds_after h
    exact ⟨w', holds'⟩
  cases op with
  | newObject id size =>
    exact lockstep_discard (Lockstep.newObject id size fun _ => trivial) _ holds
  | newInteger value =>
    exact lockstep_discard (Lockstep.newInteger value fun _ _ _ => trivial) _ holds
  | newString bytes =>
    exact lockstep_discard (Lockstep.newString bytes fun _ _ _ => trivial) _ holds
  | newArray length =>
    exact lockstep_discard (Lockstep.newArray length (fun _ _ => trivial) fun _ _ => trivial) _ holds
  | newClass name fields superclass =>
    exact lockstep_discard (Lockstep.newClass name fields superclass failed failed) _ holds
  | defineClass name fields =>
    exact lockstep_discard (Lockstep.defineClass name fields failed failed) _ holds
  | newMethod selector entry locals =>
    exact lockstep_discard (Lockstep.addMethod ⟨selector, entry, locals⟩) _ holds
  | setMethods id methods =>
    have small : ∀ y ∈ methods, y.toNat < w.memory.methods.size := by
      rw [← (holds.shows_ ()).methods]
      exact allowed
    exact (Lockstep.setMethods id methods small failed failed).mono (fun _ _ _ => trivial)
      (fun _ _ h => h) _ holds
  | collect =>
    exact Lockstep.collect.mono (fun _ _ _ => trivial) (fun _ _ h => h) _ holds
  | assemble source =>
    exact lockstep_discard (Lockstep.assemble source fun _ _ => trivial) _ holds
  | storeCode code =>
    exact lockstep_discard (Lockstep.storeCode code fun _ _ => trivial) _ holds
  | enter entry locals =>
    exact (Lockstep.enter entry locals fun _ _ => trivial).mono (fun _ _ _ => trivial)
      (fun _ _ h => h) _ holds
  | advance entryBase =>
    have stepped := Lockstep.advance entryBase holds (fun _ => allowed) (Or.inl inferInstance)
      fun _ _ => trivial
    exact Lockstep.bind_at stepped fun _ _ _ => Lockstep.of_pure trivial

end Operation

theorem Machine.Reached.holds {setup : Machine.Setup} {m : Machine} (reached : m.Reached setup) :
    ∃ w : World Unit,
      w.Holds (fun _ => bufferSize setup.settings.heapSize) fun _ => m := by
  induction reached with
  | new made =>
    have new : ∀ _ : Unit, Machine.new (setup.withHeap setup.settings.heapSize) = .ok _ :=
      fun _ => made
    obtain ⟨w, holds, -⟩ := World.holds_new new
    exact ⟨w, holds⟩
  | operation op reached allowed ih =>
    obtain ⟨w, holds⟩ := ih
    exact op.exists_holds_after holds allowed

/-- **No reference goes stale.** -/
theorem references_stay_coherent {setup : Machine.Setup} {m : Machine}
    (reached : m.Reached setup) : ∃ objects, m.memory.Coherent objects := by
  obtain ⟨w, holds⟩ := reached.holds
  exact ⟨_, (holds.shows_ ()).coherent holds.valid (holds.stray ())⟩

/-- A program takes a step, and a string is made and collected. -/
theorem references_coherent_numberProgram : ∃ m entry objects, Machine.new modestSetup = .ok m ∧
    Memory.Coherent
      ([.assemble ("\n".intercalate numberProgram), .enter entry 0, .advance 0, .newString [104, 105],
        .collect].foldl (fun m (op : Operation) => op.after m) m).memory objects := by
  obtain ⟨m, made⟩ := Machine.exists_new (show modestSetup.settings.validate = .ok () from rfl)
    (by decide) (by decide)
  obtain ⟨entry, p, q, assembled, entered, ⟨q', fetched⟩, careful, -⟩ :=
    numberProgram_entered (show Machine.new (modestSetup.withHeap 2400) = .ok m from made)
  have assembled : (Operation.assemble ("\n".intercalate numberProgram)).after m = p := by
    have run : (Operation.assemble ("\n".intercalate numberProgram)).run m = .ok () p :=
      run_bind_ok assembled
    unfold Operation.after
    rw [run]
  have entered : (Operation.enter entry 0).after p = q := by
    have run : (Operation.enter entry 0).run p = .ok () q := entered
    unfold Operation.after
    rw [run]
  have start : q.Reached modestSetup := by
    rw [← entered, ← assembled]
    exact .operation _ (.operation _ (.new made) trivial) trivial
  have allowed : (Operation.advance 0).Allowed q := by
    intro i m' found
    cases fetched.symm.trans found
    exact careful
  obtain ⟨objects, coherent⟩ := references_stay_coherent (.operation .collect
    (.operation (.newString [104, 105]) (.operation (.advance 0) start allowed) trivial) trivial)
  refine ⟨m, entry, objects, made, ?_⟩
  rw [List.foldl_cons, List.foldl_cons, assembled, entered]
  exact coherent

end ObjectMachine
