/-
  ObjectMachine/Proofs/Discipline.lean
  ====================================
  **Careful programs** — what has to hold of a machine when it carries out an instruction, so
  that the collector and the program agree on what is a reference.

  The machine itself does not check this: a program can pop the bookkeeping of its frame,
  write an address into its code, or read a slot above the top of the stack.  `Careful` says
  that it does not.  A frame does not record how many locals it has; that a local slot lies
  below the operands that the instruction pops is what remains of the condition on its index.
-/
import ObjectMachine.Proofs.LockstepSteps

namespace ObjectMachine

open IdealMemory ObjectGraph

/-- If a frame is open, there are this many words above its bookkeeping. -/
def FrameStack.HasWords (s : FrameStack) (n : Nat) : Prop :=
  s.bp ≠ noFrame → s.bp.toNat + 8 + 4 * n ≤ s.sp

namespace Machine

/-- The answer about the reference on top of the stack. -/
def aboutTop {α : Type} (m : Machine) (f : Memory → Ref → Except MachineError α) :
    Except MachineError α := do
  f m.memory (← liftMemory (m.memory.peekRef 0))

/-- How many operands an instruction pops from the stack of this machine. -/
def demand (m : Machine) (i : Instruction) : Nat :=
  i.demand m.services (fun index => (textConstant m.memory index).isOk)
    (m.aboutTop integerValue).isOk (m.aboutTop stringValue).isOk

/-- **Care.**  Words from the code are no addresses, pops and local slots stay above the
    bookkeeping of the frame, argument slots are not the bookkeeping of any frame, and bytes
    are written to objects of bytes only. -/
structure Careful (m : Machine) (i : Instruction) : Prop where
  operands : m.memory.stack.HasWords (m.demand i)
  literal : ∀ w, i.literal? = some w → Stray addressGuard m.memory.space.bytes.size ⟨w⟩
  slot : ∀ index, i.localSlot? = some index →
    m.memory.stack.HasWords (index.toNat + 1 + m.demand i)
  argument : ∀ index offset chain, i.argumentSlot? = some index →
    m.memory.stack.argOffset index = .ok offset → m.memory.stack.chain = .ok chain →
    chain.controls offset = false
  bytes : ∀ value r v, i = .setBytes value → m.memory.peekRef 0 = .ok r →
    m.memory.view r = .ok v → v.header.kind = .bytes

/-- The index of a field, which `get-field` has on top of the stack and `set-field` below the
    new value, is not the address of an object. -/
structure Indexed (m : Machine) (i : Instruction) : Prop where
  get : i = .getField → ∀ r, m.memory.peekRef 0 = .ok r → m.memory.isObject r = false
  set : i = .setField → ∀ r, m.memory.peekRef 1 = .ok r → m.memory.isObject r = false

/-- Opens a frame for the code at an address. -/
def enter (entry : CodeAddress) (locals : Word) : Run Unit := do
  Memory.newFrame locals
  Memory.setPc entry

section Entry

variable {fuel : Nat} {entry : CodeAddress} {locals : Word} {m m' : Machine}

/-- A run opens its frame, and goes on from there. -/
theorem run_eq (fuel : Nat) (entry : CodeAddress) (locals : Word) : run fuel entry locals =
    (enter entry locals >>= fun _ => do runFrom (← get).memory.stack.bp fuel 0) := by
  unfold run enter
  rw [bind_assoc]

theorem run_eq_ok (entered : enter entry locals m = .ok () m') :
    run fuel entry locals m = runFrom m'.memory.stack.bp fuel 0 m' := by
  rw [run_eq, run_bind_ok entered, run_get_bind]

theorem run_eq_error {e : MachineError} (full : enter entry locals m = .error e m') :
    run fuel entry locals m = .error e m' := by
  rw [run_eq, run_bind_error full]

end Entry

end Machine

theorem Instruction.demand_congr {services : ServiceTable} {isText : Word → Bool}
    {integer integer' string string' : Bool} (i : Instruction)
    (h : 1 ≤ i.demand services isText integer string → integer = integer' ∧ string = string') :
    i.demand services isText integer string = i.demand services isText integer' string' := by
  by_cases some_ : 1 ≤ i.demand services isText integer string
  · rw [(h some_).1, (h some_).2]
  · have none : i.demand services isText integer string = 0 := by omega
    rw [none]
    cases i with
    | syscall id =>
      rw [demand_syscall] at none ⊢
      cases found : services.get? id with
      | none => rfl
      | some entry =>
        rw [found, Option.map_some, Option.getD_some] at none
        rw [Option.map_some, Option.getD_some]
        cases service : entry.service <;> rw [service] at none <;>
          first | rfl | (simp only [Service.demand] at none; split at none <;> cases none) |
            cases none
    | addInt | subInt | mulInt | divInt | modInt =>
      change (if integer then 2 else 1) = 0 at none
      split at none <;> cases none
    | branch condition offset =>
      change (if integer then 2 else 1) = 0 at none
      split at none <;> cases none
    | _ => first | rfl | exact none.symm

/-! ### From a machine to the ideal memory -/

section Machine

variable {m : Machine} {A : IdealMemory} {η : Placement} {harmless : Word → Prop}
variable (shows_ : m.memory.Shows A η)
include shows_

theorem Memory.Shows.hasWords_iff (n : Nat) : m.memory.stack.HasWords n ↔ A.HasWords n := by
  unfold FrameStack.HasWords IdealMemory.HasWords
  rw [shows_.stack.bp_eq, shows_.stack.sp_eq]

theorem Memory.Shows.peekRef_ok {cs rest : List Value} {v : Value} (eq : A.cells = cs ++ v :: rest)
    (small : (rest.length + 1) * 4 < sizeLimit) :
    ∃ y, m.memory.peekRef rest.length = .ok ⟨y⟩ ∧ η.word? v = some y := by
  obtain ⟨y, run, value⟩ := shows_.stack.peek_ok eq small
  refine ⟨y, ?_, value⟩
  unfold Memory.peekRef
  rw [run]
  rfl

/-- A question about the top of the stack is answered by the ideal memory. -/
theorem Memory.Shows.aboutTop_isOk {α β : Type} {f : Memory → Ref → Except MachineError α}
    {g : Value → Option β} (valid : A.Valid harmless) (words : A.HasWords 1)
    (h : ∀ v y, A.Plain harmless v → η.word? v = some y →
      (f m.memory ⟨y⟩).isOk = (g v).isSome) :
    (m.aboutTop f).isOk = (A.cells.getLast?.bind g).isSome := by
  unfold Machine.aboutTop
  rcases List.eq_nil_or_concat A.cells with empty | ⟨cs, v, eq⟩
  · have run : m.memory.peekRef 0 = .error .stackUnderflow := by
      unfold Memory.peekRef
      rw [shows_.stack.peek_empty empty]
      rfl
    rw [run, empty]
    rfl
  · rw [List.concat_eq_append] at eq
    obtain ⟨y, run, value⟩ := shows_.peekRef_ok eq (by decide)
    have run : m.memory.peekRef 0 = .ok ⟨y⟩ := run
    have operand : ¬Control A.bases cs.length := by
      intro control
      obtain ⟨open_, below⟩ := valid.framed.control_lt_floor control
      have := words open_
      rw [eq, List.length_append, List.length_singleton] at this
      omega
    rw [run, eq, List.getLast?_concat]
    exact h v y (valid.plain_top eq operand) value

theorem Memory.Shows.integerValue_isOk
    (stray : ∀ y, harmless y → Stray addressGuard m.memory.space.bytes.size ⟨y⟩) {v : Value}
    {y : Word} (plain : A.Plain harmless v) (value : η.word? v = some y) :
    (Machine.integerValue m.memory ⟨y⟩).isOk = (A.integer? v).isSome := by
  cases v with
  | raw z =>
    obtain rfl : z = y := Option.some.inj value
    unfold Machine.integerValue
    rw [shows_.view_stray (stray z plain)]
    rfl
  | object id =>
    obtain ⟨view, run, viewed⟩ := shows_.viewed (Placement.word?_object_eq_some value)
    unfold Machine.integerValue
    rw [run, Machine.liftMemory, ok_bind]
    cases content : (A.store id).content with
    | fields values =>
      simp only [IdealMemory.integer?, content]
      rw [viewed.intValue?_fields content]
      rfl
    | bytes xs =>
      simp only [IdealMemory.integer?, content]
      rw [viewed.intValue?_bytes content]
      cases Word.ofList? xs <;> rfl

theorem Memory.Shows.stringValue_isOk
    (stray : ∀ y, harmless y → Stray addressGuard m.memory.space.bytes.size ⟨y⟩) {v : Value}
    {y : Word} (plain : A.Plain harmless v) (value : η.word? v = some y) :
    (Machine.stringValue m.memory ⟨y⟩).isOk = (A.string? v).isSome := by
  cases v with
  | raw z =>
    obtain rfl : z = y := Option.some.inj value
    unfold Machine.stringValue
    rw [shows_.view_stray (stray z plain)]
    rfl
  | object id =>
    obtain ⟨view, run, viewed⟩ := shows_.viewed (Placement.word?_object_eq_some value)
    unfold Machine.stringValue
    rw [run]
    change Except.isOk (if view.header.kind = .bytes then _ else _) = _
    rw [viewed.kind]
    cases content : (A.store id).content with
    | fields values =>
      simp only [IdealMemory.string?, content]
      rfl
    | bytes xs =>
      simp only [IdealMemory.string?, content]
      rfl

theorem Memory.Shows.textConstant_isOk (index : Word) :
    (Machine.textConstant m.memory index).isOk = (A.text? index).isSome := by
  unfold Machine.textConstant Memory.constantAt IdealMemory.text?
  rw [shows_.constants]
  cases A.constants.get index with
  | error e => rfl
  | ok c => cases c <;> rfl

end Machine

namespace World.Holds

variable {ι : Type} {limit : ι → Nat} {w : World ι} {m : ι → Machine} (holds : w.Holds limit m)
include holds

theorem demand_eq (j : ι) {i : Instruction} (words : (m j).memory.stack.HasWords ((m j).demand i)) :
    (m j).demand i = w.demand i := by
  have shows_ := holds.shows_ j
  unfold Machine.demand World.demand
  simp only [holds.services j, shows_.textConstant_isOk]
  refine Instruction.demand_congr i ?_
  intro some_
  have one : w.memory.HasWords 1 := by
    refine HasWords.mono ((shows_.hasWords_iff _).1 words) ?_
    unfold Machine.demand
    simpa only [holds.services j, shows_.textConstant_isOk] using some_
  exact ⟨shows_.aboutTop_isOk holds.valid one fun v y plain value =>
      shows_.integerValue_isOk (holds.stray j) plain value,
    shows_.aboutTop_isOk holds.valid one fun v y plain value =>
      shows_.stringValue_isOk (holds.stray j) plain value⟩

theorem freeArgument (j : ι) {index : Word}
    (h : ∀ offset chain, (m j).memory.stack.argOffset index = .ok offset →
      (m j).memory.stack.chain = .ok chain → chain.controls offset = false) :
    w.memory.FreeArgument index := by
  have shows_ := holds.shows_ j
  have framed := holds.valid.framed
  intro k slot control
  have open_ := (framed.control_lt_floor control).1
  have hk := framed.control_lt control
  have offset := shows_.stack.argOffset_eq open_ slot hk
  have apart := h _ _ offset (shows_.chain holds.valid)
  rw [Nat.mul_comm 4 k] at apart
  have meets := (FrameStack.controls_iff _ _ none).2 control
  rw [apart] at meets
  cases meets

/-- **Care carries over** to what the machines have in common. -/
theorem careful [Nonempty ι] {i : Instruction} (h : ∀ j, (m j).Careful i) : w.Careful limit i := by
  obtain ⟨j⟩ := ‹Nonempty ι›
  have shows_ := holds.shows_ j
  have demand := holds.demand_eq j (h j).operands
  refine ⟨?operands, ?literal, ?slot, ?argument, ?bytes⟩
  case operands =>
    rw [← demand]
    exact (shows_.hasWords_iff _).1 (h j).operands
  case literal =>
    intro y literal k
    have stray := (h k).literal y literal
    rwa [holds.size k] at stray
  case slot =>
    intro index slot
    rw [← demand]
    exact (shows_.hasWords_iff _).1 ((h j).slot index slot)
  case argument =>
    intro index slot
    refine holds.freeArgument j ?_
    intro offset chain
    exact (h j).argument index offset chain slot
  case bytes =>
    intro value eq cs id cells
    obtain ⟨y, peek, word⟩ := shows_.peekRef_ok cells (by decide)
    obtain ⟨view, run, viewed⟩ := shows_.viewed (Placement.word?_object_eq_some word)
    have kind := (h j).bytes value _ view eq peek run
    rw [viewed.kind] at kind
    cases content : (w.memory.store id).content with
    | bytes xs => exact ⟨xs, rfl⟩
    | fields values =>
      rw [content] at kind
      cases kind

theorem raw_of_not_object (j : ι) {v : Value} {y : Word} (value : (w.place j).word? v = some y)
    (h : (m j).memory.isObject ⟨y⟩ = false) : ∃ y, v = .raw y := by
  cases v with
  | raw y => exact ⟨y, rfl⟩
  | object id =>
    obtain ⟨view, run, -⟩ := (holds.shows_ j).viewed (Placement.word?_object_eq_some value)
    unfold Memory.isObject at h
    rw [run] at h
    cases h

theorem indexed [Nonempty ι] {i : Instruction} (h : ∀ j, (m j).Indexed i) : w.memory.Indexed i := by
  obtain ⟨j⟩ := ‹Nonempty ι›
  have shows_ := holds.shows_ j
  constructor
  · intro eq cs v cells
    obtain ⟨y, peek, value⟩ := shows_.peekRef_ok cells (by decide)
    exact holds.raw_of_not_object j value ((h j).get eq _ peek)
  · intro eq cs v u cells
    have small : ([u].length + 1) * 4 < sizeLimit := show 8 < sizeLimit by decide
    obtain ⟨y, peek, value⟩ := shows_.peekRef_ok cells small
    exact holds.raw_of_not_object j value ((h j).set eq _ peek)

end World.Holds

/-! ### A step of a careful program -/

namespace Lockstep

variable {ι : Type} [Nonempty ι] {limit : ι → Nat} {w : World ι} {m : ι → Machine}
  {fail : MachineError → IdealMemory → Prop}

/-- **Fetching and carrying out an instruction.** -/
theorem advance (entryBase : Word) (holds : w.Holds limit m)
    (careful : ∀ j i m', Machine.fetch (m j) = .ok i m' → (m j).Careful i)
    (indexed : Subsingleton ι ∨ ∀ j i m', Machine.fetch (m j) = .ok i m' → (m j).Indexed i)
    (failed : ∀ e A, fail e A) :
    Exhausted limit (fun _ => Machine.advance entryBase) m fail ∨
      Succeeds limit (fun _ => Machine.advance entryBase) m (fun _ a => ∃ flow, a = fun _ => flow) ∨
      Fails limit (fun _ => Machine.advance entryBase) m fail := by
  have fetched : Exhausted limit (fun _ => Machine.fetch) m fail ∨
      Succeeds limit (fun _ => Machine.fetch) m (fun w' a => ∃ i, a = (fun _ => i) ∧
        w'.Careful limit i ∧ (Subsingleton ι ∨ w'.memory.Indexed i)) ∨
      Fails limit (fun _ => Machine.fetch) m fail := by
    rcases fetch failed m holds with exhausted | succeeds | fails
    · exact Or.inl exhausted
    · obtain ⟨w₁, a, m₁, run, holds₁, i, pc, rfl, rfl⟩ := succeeds
      have here := holds.careful fun j => careful j i (m₁ j) (run j)
      refine Or.inr (Or.inl ⟨_, _, m₁, run, holds₁, i, rfl, { here with }, ?_⟩)
      refine indexed.imp_right fun h => ?_
      have here := holds.indexed fun j => h j i (m₁ j) (run j)
      exact { here with }
    · exact Or.inr (Or.inr fails)
  have rest : ∀ (w' : World ι) (a : ι → Instruction), (∃ i, a = (fun _ => i) ∧
      w'.Careful limit i ∧ (Subsingleton ι ∨ w'.memory.Indexed i)) →
      Lockstep limit w' (fun j => do
        Memory.note (.executed (m j).memory.pc (a j))
        Machine.step entryBase (a j)) (fun _ a => ∃ flow, a = fun _ => flow) fail := by
    rintro w' - ⟨i, rfl, here, raw⟩
    refine bind (note _) ?_
    rintro w'' - rfl
    exact step entryBase i here raw failed
  exact congr_run (fun j => run_get_bind _) (bind_at fetched rest)

omit [Nonempty ι] in
theorem enter (entry : CodeAddress) (locals : Word)
    (full : w.memory.stackSize < 4 * w.memory.cells.length + (8 + locals.toNat * 4) →
      ∀ e, fail e w.memory) :
    Lockstep limit w (fun _ => Machine.enter entry locals)
      (fun w' _ => ∃ cells bp bases, w' = { w with memory := { w.memory with
        cells := cells, bp := bp, bases := bases, pc := entry } }) fail := by
  refine bind (newFrame locals full) ?_
  rintro w' - ⟨cells, bp, bases, rfl⟩
  refine mono (setPc entry) ?_ fun _ _ h => h
  rintro w'' - rfl
  exact ⟨cells, bp, bases, rfl⟩

end Lockstep

end ObjectMachine
