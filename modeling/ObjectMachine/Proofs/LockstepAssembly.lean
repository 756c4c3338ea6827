/-
  ObjectMachine/Proofs/LockstepAssembly.lean
  ==========================================
  **Assembling in lockstep** — one source text gives the same code on all machines.

  The assembler asks its machine for constants, services and classes.  A class without a
  proper name is shown by its address, but no operand can spell an address: names are
  identifiers.  So all machines give the same answers, and all that assembling changes is
  the constant pool.
-/
import ObjectMachine.Proofs.AssembledCode
import ObjectMachine.Proofs.LockstepClasses

namespace ObjectMachine

open IdealMemory

/-! ### Names are identifiers -/

/-- Every name among the operands is an identifier. -/
def SourceLine.Named (line : SourceLine) : Prop :=
  ∀ name, .name name ∈ line.operands → Operand.isIdentifier name.toList = true

/-- Every element on the right has a partner on the left. -/
theorem exists_of_forall₂ {α β : Type} {R : α → β → Prop} {xs : List α} {ys : List β}
    (h : List.Forall₂ R xs ys) {y : β} (mem : y ∈ ys) : ∃ x ∈ xs, R x y := by
  induction h with
  | nil => cases mem
  | @cons x z xs ys first _ ih =>
    rcases List.mem_cons.1 mem with rfl | mem
    · exact ⟨x, List.mem_cons_self, first⟩
    · obtain ⟨x', mem', related⟩ := ih mem
      exact ⟨x', List.mem_cons_of_mem x mem', related⟩

/-- **Names are identifiers** in everything that is laid out. -/
theorem Layout.ofSource_named {source : String} {l : Layout} (h : ofSource source = .ok l) :
    ∀ line ∈ l.lines, line.Named := by
  obtain ⟨statements, said, laid⟩ := laid_of_ofSource h
  intro line mem name named
  have written : (line.op, line.operands) ∈ statements.filterMap Statement.instruction := by
    rw [← laid.lines]
    exact List.mem_map_of_mem (Array.mem_toList_iff.2 mem)
  obtain ⟨statement, mem, instruction⟩ := List.mem_filterMap.1 written
  obtain ⟨text, -, body, -, spelled⟩ := exists_of_forall₂ said mem
  rw [instruction] at spelled
  cases spelled with
  | some spelled =>
    obtain ⟨token, -, spelled⟩ := exists_of_forall₂ spelled named
    cases spelled with
    | name identifier => exact identifier

/-! ### Classes by their names -/

namespace IdealMemory

/-- The name of a class. -/
def className? (A : IdealMemory) (id : Nat) : Option String :=
  match (A.store id).content with
  | .fields (.raw name :: _) => A.text? name
  | _ => none

/-- The first class with a name. -/
def classNamed? (A : IdealMemory) (name : String) : Option ClassId :=
  ((List.range A.classes.length).map fun n => (⟨UInt32.ofNat n⟩ : ClassId)).find? fun id =>
    ((A.classes[id.index.toNat]?).bind A.className?) == some name

end IdealMemory

section Names

variable {mem : Memory} {A : IdealMemory} {η : Placement} {harmless : Word → Prop}

theorem Memory.Shows.className?_eq (shows_ : mem.Shows A η) (valid : A.Valid harmless) {id : Nat}
    {r : Ref} (registered : id ∈ A.classes) (placed : η id = some r) :
    Machine.className? mem r = A.className? id := by
  obtain ⟨name, superclass, metaclass, size, methods, content, -⟩ := valid.class_layout id registered
  obtain ⟨view, run, viewed⟩ := shows_.viewed placed
  obtain ⟨c, decoded, same, -⟩ := viewed.ofObject?_eq content
  have found : Machine.classView mem r = .ok c := by
    unfold Machine.classView
    rewrite [run, Machine.liftMemory, ok_bind, decoded]
    rfl
  unfold Machine.className? IdealMemory.className? IdealMemory.text? Memory.constantAt
  rw [found, content, shows_.constants]
  dsimp only
  rewrite [same]
  cases A.constants.get name with
  | error e => rfl
  | ok constant => cases constant <;> rfl

/-- No identifier is an address in angle brackets. -/
theorem className_beq {name : String} (spelled : Operand.isIdentifier name.toList = true) (r : Ref) :
    (Machine.className mem r == name) = (Machine.className? mem r == some name) := by
  unfold Machine.className
  cases Machine.className? mem r with
  | some other => rfl
  | none =>
    have ne : "<" ++ r.text ++ ">" ≠ name := by
      rintro rfl
      rw [String.toList_append, String.toList_append] at spelled
      cases spelled
    simpa using ne

theorem Memory.Shows.classNamed?_eq (shows_ : mem.Shows A η) (valid : A.Valid harmless)
    {name : String} (spelled : Operand.isIdentifier name.toList = true) :
    Machine.classNamed? mem name = A.classNamed? name := by
  have length : mem.classes.size = A.classes.length := by
    simpa using (congrArg List.length shows_.classes).symm
  unfold Machine.classNamed? IdealMemory.classNamed? Memory.classIds
  rw [length]
  congr 1
  funext id
  rcases shows_.classRef_eq id with ⟨r, v, value, run, word⟩ | ⟨value, run⟩
  · obtain ⟨cid, entry, rfl⟩ := Option.map_eq_some_iff.1 value
    rw [run, entry]
    dsimp only
    rw [className_beq spelled, shows_.className?_eq valid (List.mem_of_getElem? entry)
      (Placement.word?_object_eq_some word)]
    rfl
  · rw [run, Option.map_eq_none_iff.1 value]
    rfl

end Names

/-! ### Assembling -/

/-- The machine with other constants. -/
def Machine.withConstants (m : Machine) (pool : ConstantPool) : Machine :=
  { m with memory := { m.memory with constants := pool } }

namespace World

variable {ι : Type} {limit : ι → Nat} {w : World ι} {m : ι → Machine}

/-- The world with other constants. -/
def withConstants (w : World ι) (pool : ConstantPool) : World ι :=
  { w with memory := { w.memory with constants := pool } }

theorem Holds.withConstants (holds : w.Holds limit m) (pool : ConstantPool) :
    (w.withConstants pool).Holds limit fun i => (m i).withConstants pool :=
  ⟨fun i => { holds.shows_ i with constants := rfl }, holds.size, holds.host,
    { holds.valid with }⟩

end World

/-- Assembling gives the same result on all machines, and changes their constants only. -/
def Assembles {ι α : Type} (limit : ι → Nat) (w : World ι) (x : Resolver.Run Machine α) : Prop :=
  ∀ m, w.Holds limit m → ∃ r pool, ∀ i, x.run.run (m i) = (r, (m i).withConstants pool)

namespace Assembles

variable {ι α β : Type} {limit : ι → Nat} {w : World ι}

theorem of_result {x : Resolver.Run Machine α} (r : Except AssemblyError α)
    (h : ∀ m, w.Holds limit m → ∀ i, x.run.run (m i) = (r, m i)) : Assembles limit w x := by
  intro m holds
  refine ⟨r, w.memory.constants, ?_⟩
  intro i
  rw [h m holds i, ← (holds.shows_ i).constants]
  rfl

theorem of_pure (a : α) : Assembles limit w (pure a : Resolver.Run Machine α) :=
  of_result (.ok a) fun _ _ _ => rfl

theorem of_throw (e : AssemblyError) : Assembles limit w (throw e : Resolver.Run Machine α) :=
  of_result (.error e) fun _ _ _ => rfl

theorem bind {x : Resolver.Run Machine α} {f : α → Resolver.Run Machine β}
    (h : Assembles limit w x) (next : ∀ pool a, Assembles limit (w.withConstants pool) (f a)) :
    Assembles limit w (x >>= f) := by
  intro m holds
  obtain ⟨r, pool, run⟩ := h m holds
  cases r with
  | error e => exact ⟨.error e, pool, fun i => Resolver.run_bind_error (run i)⟩
  | ok a =>
    obtain ⟨r', pool', run'⟩ := next pool a _ (holds.withConstants pool)
    exact ⟨r', pool', fun i => (Resolver.run_bind_ok (run i)).trans (run' i)⟩

theorem mapM {f : α → Resolver.Run Machine β} {xs : List α}
    (h : ∀ (w : World ι), ∀ x ∈ xs, Assembles limit w (f x)) : Assembles limit w (xs.mapM f) := by
  induction xs generalizing w with
  | nil => exact of_pure []
  | cons x xs ih =>
    rw [List.mapM_cons]
    refine bind (h w x List.mem_cons_self) fun pool y => ?_
    refine bind (ih fun w x mem => h w x (List.mem_cons_of_mem _ mem)) fun pool ys => ?_
    exact of_pure (y :: ys)

theorem intern (c : Constant) :
    Assembles limit w (liftM (m := StateM Machine) (Machine.resolver.intern c)) := by
  intro m holds
  refine ⟨.ok (w.memory.constants.add c).1, (w.memory.constants.add c).2, ?_⟩
  intro i
  rw [← (holds.shows_ i).constants]
  rfl

theorem name (op : Opcode) {value : String} (spelled : Operand.isIdentifier value.toList = true) :
    Assembles limit w (Machine.resolver.name op value : Resolver.Run Machine (Option Word)) := by
  cases op with
  | syscall =>
    refine of_result (.ok (w.host.services.idOf? value)) ?_
    intro m holds i
    rw [← holds.services i]
    rfl
  | new =>
    refine of_result (.ok ((w.memory.classNamed? value).map (·.index))) ?_
    intro m holds i
    rw [← (holds.shows_ i).classNamed?_eq holds.valid spelled]
    rfl
  | call => exact bind (intern (.text value)) fun pool index => of_pure (some index)
  | _ => exact of_pure none

theorem word (layout : Layout) {line : SourceLine} (stop : Nat) {o : Operand}
    (spelled : ∀ value, o = .name value → Operand.isIdentifier value.toList = true) :
    Assembles limit w (Machine.resolver.word layout line stop o) := by
  cases o with
  | word value => exact of_pure value
  | text value => exact intern (.text value)
  | number value => exact intern (.number value)
  | label label =>
    unfold Resolver.word
    dsimp only
    split
    · split
      · exact of_pure _
      · exact of_throw _
    · exact of_throw _
  | name value =>
    refine bind (name line.op (spelled value rfl)) fun pool found => ?_
    cases found with
    | some index => exact of_pure index
    | none => exact of_throw _

theorem instruction (layout : Layout) {line : SourceLine} (stop : Nat) (named : line.Named) :
    Assembles limit w (Machine.resolver.instruction layout line stop) := by
  refine bind (mapM ?_) fun pool words => ?_
  · intro w o mem
    refine word layout stop ?_
    rintro value rfl
    exact named value mem
  · split
    · exact of_pure _
    · exact of_throw _

theorem instructions (layout : Layout) {lines : List SourceLine} {start : Nat}
    (named : ∀ line ∈ lines, line.Named) :
    Assembles limit w (Machine.resolver.instructions layout start lines) := by
  induction lines generalizing w start with
  | nil => exact of_pure []
  | cons line lines ih =>
    refine bind (instruction layout _ (named line List.mem_cons_self)) fun pool i => ?_
    refine bind (ih fun line mem => named line (List.mem_cons_of_mem _ mem)) fun pool rest => ?_
    exact of_pure (i :: rest)

theorem assemble (source : String) :
    Assembles limit w (ObjectMachine.assemble Machine.resolver source) := by
  unfold ObjectMachine.assemble
  split
  · exact of_throw _
  · rename_i layout found
    refine bind (instructions layout ?_) fun pool code => of_pure _
    intro line mem
    exact Layout.ofSource_named found line (Array.mem_toList_iff.1 mem)

end Assembles

namespace Lockstep

variable {ι α : Type} {limit : ι → Nat} {w : World ι}
  {fail : MachineError → IdealMemory → Prop}

theorem runAssembler {x : Resolver.Run Machine α} (h : Assembles limit w x)
    (failed : ∀ e A, fail e A) :
    Lockstep limit w (fun _ => Machine.runAssembler x)
      (fun w' a => ∃ code pool, (a = fun _ => code) ∧ w' = w.withConstants pool) fail := by
  intro m holds
  obtain ⟨r, pool, run⟩ := h m holds
  have holds' := holds.withConstants pool
  cases r with
  | ok code =>
    refine Or.inr (Or.inl ⟨_, _, _, ?_, holds', code, pool, rfl, rfl⟩)
    intro i
    unfold Machine.runAssembler
    dsimp only
    rw [run i]
  | error e =>
    refine Or.inr (Or.inr ⟨_, fun _ => .assembly e, _, ?_, fun _ _ => rfl, holds',
      fun _ => failed _ _⟩)
    intro i
    unfold Machine.runAssembler
    dsimp only
    rw [run i]

/-- **Assembling a program.** -/
theorem assemble (source : String) (failed : ∀ e A, fail e A) :
    Lockstep limit w (fun _ => Machine.assemble source)
      (fun _ a => ∃ entry, a = fun _ => entry) fail := by
  refine bind (runAssembler (Assembles.assemble source) failed) ?_
  rintro w' - ⟨code, pool, rfl, rfl⟩
  refine mono (storeCode code fun _ e => failed e _) ?_ (fun _ _ h => h)
  rintro w'' - ⟨rfl, -⟩
  exact ⟨_, rfl⟩

end Lockstep

end ObjectMachine
