/-
  ObjectMachine/Proofs/LockstepSteps.lean
  =======================================
  **Instructions in lockstep** — one lemma for each thing that an instruction does, and from
  them one for whole steps.

  What an instruction asks of a program is `Careful`: the words that it writes into its own
  code are no addresses, its pops stay above the bookkeeping of the frame, its slots are
  where slots are, and it treats nothing but bytes as bytes.  On several machines also the
  indices of fields have to be the same, so they must not be objects.
-/
import ObjectMachine.Proofs.LockstepServices

namespace ObjectMachine

open IdealMemory

/-! ### What instructions ask for -/

/-- How many operands a service pops, if the first of them is a String or is not. -/
def Service.demand (string : Bool) : Service → Nat
  | .idle | .collect => 0
  | .writeLine | .stringAppend => if string then 2 else 1
  | _ => 1

namespace Instruction

/-- How many operands an instruction pops.  Of two operands the second is popped only if the
    first one is what it has to be. -/
def demand (services : ServiceTable) (isText : Word → Bool) (integer string : Bool) :
    Instruction → Nat
  | .syscall id => ((services.get? id).map (·.service.demand string)).getD 0
  | .call selector => if isText selector then 1 else 0
  | .getField => 2
  | .setField => 3
  | .retTop | .setBytes _ | .popRef | .popInt | .storeLocal _ => 1
  | .addInt | .subInt | .mulInt | .divInt | .modInt | .branch _ _ => if integer then 2 else 1
  | _ => 0

theorem demand_syscall (services : ServiceTable) (isText : Word → Bool) (integer string : Bool)
    (id : Word) : demand services isText integer string (.syscall id) =
      ((services.get? id).map (·.service.demand string)).getD 0 :=
  rfl

/-- The word that an instruction writes to the stack from the code. -/
def literal? : Instruction → Option Word
  | .pushRef address => some address
  | .pushInt value => some value
  | .storeArg _ address => some address
  | _ => none

/-- The local slot of an instruction. -/
def localSlot? : Instruction → Option Word
  | .storeLocal index => some index
  | .loadLocal index => some index
  | _ => none

/-- The argument slot of an instruction. -/
def argumentSlot? : Instruction → Option Word
  | .storeArg index _ => some index
  | .loadArg index => some index
  | _ => none

end Instruction

namespace IdealMemory

variable (A : IdealMemory)

/-- Whether the value on top of the stack is an Integer. -/
def integerOnTop : Bool := (A.cells.getLast?.bind A.integer?).isSome

/-- Whether the value on top of the stack is a String. -/
def stringOnTop : Bool := (A.cells.getLast?.bind A.string?).isSome

theorem integerOnTop_of_integer? {A : IdealMemory} {cs : List Value} {v : Value} {n : Word}
    (eq : A.cells = cs ++ [v]) (found : A.integer? v = some n) : A.integerOnTop = true := by
  simp [integerOnTop, eq, found]

theorem stringOnTop_of_string? {A : IdealMemory} {cs : List Value} {v : Value} {xs : List UInt8}
    (eq : A.cells = cs ++ [v]) (found : A.string? v = some xs) : A.stringOnTop = true := by
  simp [stringOnTop, eq, found]

end IdealMemory

variable {ι : Type}

def World.demand (w : World ι) (i : Instruction) : Nat :=
  i.demand w.host.services (fun index => (w.memory.text? index).isSome) w.memory.integerOnTop
    w.memory.stringOnTop

/-- What an instruction may rely on. -/
structure World.Careful (limit : ι → Nat) (w : World ι) (i : Instruction) : Prop where
  operands : w.memory.HasWords (w.demand i)
  literal : ∀ y, i.literal? = some y → Harmless limit y
  slot : ∀ index, i.localSlot? = some index → w.memory.HasWords (index.toNat + 1 + w.demand i)
  argument : ∀ index, i.argumentSlot? = some index → w.memory.FreeArgument index
  bytes : ∀ value, i = .setBytes value → ∀ cs id, w.memory.cells = cs ++ [.object id] →
    ∃ xs, (w.memory.store id).content = .bytes xs

/-- Indices of fields are raw words. -/
structure IdealMemory.Indexed (A : IdealMemory) (i : Instruction) : Prop where
  get : i = .getField → ∀ cs v, A.cells = cs ++ [v] → ∃ y, v = .raw y
  set : i = .setField → ∀ cs v u, A.cells = cs ++ [v, u] → ∃ y, v = .raw y

namespace Lockstep

variable {α : Type} {limit : ι → Nat} {w : World ι} {post : World ι → (ι → α) → Prop}
  {fail : MachineError → IdealMemory → Prop} {v : Value}

/-! ### Services -/

theorem perform [Nonempty ι] (service : Service)
    (operands : w.memory.HasWords (service.demand w.memory.stringOnTop))
    (failed : ∀ e A, fail e A) :
    Lockstep limit w (fun _ => Machine.perform service) (fun _ _ => True) fail := by
  have second : w.memory.HasWords (if w.memory.stringOnTop then 2 else 1) →
      w.memory.HasWords 1 ∧ ∀ cs v xs, w.memory.cells = cs ++ [v] → w.memory.string? v = some xs →
        w.memory.HasWords 2 := by
    intro words
    refine ⟨words.mono (by split <;> omega), ?_⟩
    intro cs v xs eq found
    rwa [stringOnTop_of_string? eq found] at words
  cases service with
  | print =>
    refine bind (popString operands failed) ?_
    rintro w₁ - ⟨cs, v, xs, eq, rfl, rfl, -⟩
    exact printLine xs failed
  | printInt =>
    refine bind (popInteger operands failed) ?_
    rintro w₁ - ⟨cs, v, n, eq, rfl, rfl, -⟩
    exact printLine _ failed
  | openReader => exact openReader operands failed
  | openWriter => exact openWriter operands failed
  | closeReader => exact closeReader operands failed
  | closeWriter => exact closeWriter operands failed
  | readLine => exact readLine operands failed
  | writeLine => exact writeLine (second operands).1 (second operands).2 failed
  | stringLength =>
    refine bind (popString operands failed) ?_
    rintro w₁ - ⟨cs, v, xs, eq, rfl, rfl, -⟩
    exact pushInteger _ failed
  | stringAppend => exact stringAppend (second operands).1 (second operands).2 failed
  | arrayLength =>
    refine bind (popRef operands fun e => failed e _) ?_
    rintro w₁ r ⟨cs, v, eq, rfl, plain, value⟩
    refine bind (ask (Answers.arrayLength value (by rintro y rfl; exact plain))
      fun e => failed e _) ?_
    rintro w₂ - ⟨rfl, n, rfl⟩
    exact pushInteger n failed
  | stringSplit => exact splitString operands failed
  | idle => exact of_pure trivial
  | collect => exact mono collect (fun _ _ _ => trivial) (fun _ _ h => h)

theorem invoke [Nonempty ι] (id : Word) (operands : w.memory.HasWords (w.demand (.syscall id)))
    (failed : ∀ e A, fail e A) :
    Lockstep limit w (fun _ => Machine.invoke id) (fun _ _ => True) fail := by
  refine get_bind ?_
  intro m holds
  simp only [holds.services]
  cases found : w.host.services.get? id with
  | none => exact of_throw (fun _ _ => rfl) fun _ => failed _ _
  | some entry =>
    have demand : w.demand (.syscall id) = entry.service.demand w.memory.stringOnTop := by
      unfold World.demand
      rw [Instruction.demand_syscall, found]
      rfl
    refine bind (note _) ?_
    rintro w₁ - rfl
    exact perform entry.service (demand ▸ operands) failed

/-! ### Fields -/

theorem liftExcept (x : Except MachineError α) (failed : ∀ e A, fail e A) :
    Lockstep limit w (fun _ => Machine.liftExcept x) (fun w' a => ∃ r, a = (fun _ => r) ∧ w' = w)
      fail := by
  cases x with
  | ok a => exact of_pure ⟨a, rfl, rfl⟩
  | error e => exact of_throw (fun _ _ => rfl) fun _ => failed _ _

/-- An index that is the same on all machines. -/
theorem uniform_index [Nonempty ι] {index : ι → Word}
    (value : ∀ i, (w.place i).word? v = some (index i))
    (uniform : Subsingleton ι ∨ ∃ y, v = .raw y) : ∃ y, index = fun _ => y := by
  rcases uniform with single | ⟨y, rfl⟩
  · obtain ⟨j⟩ := ‹Nonempty ι›
    exact ⟨index j, funext fun i => by rw [Subsingleton.elim i j]⟩
  · exact ⟨y, funext fun i => (Option.some.inj (value i)).symm⟩

theorem getField [Nonempty ι] (operands : w.memory.HasWords 2)
    (uniform : Subsingleton ι ∨ ∀ cs v, w.memory.cells = cs ++ [v] → ∃ y, v = .raw y)
    (failed : ∀ e A, fail e A) :
    Lockstep limit w (fun _ => Machine.getField) (fun _ _ => True) fail := by
  refine bind (popWord (operands.mono (by omega)) fun e => failed e _) ?_
  rintro w₁ index ⟨cs, v, eq, rfl, -, at_index⟩
  refine bind (popRef (operands.pop eq) fun e => failed e _) ?_
  rintro w₂ object ⟨cs', v', eq', rfl, plain, value⟩
  obtain ⟨y, rfl⟩ := uniform_index at_index (uniform.imp_right fun h => h cs v eq)
  refine bind (ask (Answers.fieldValue value (by rintro y rfl; exact plain) (fun _ _ => rfl) plain)
    fun e => failed e _) ?_
  rintro w₃ field ⟨rfl, v', plain', value'⟩
  exact mono (pushRef value' plain' fun e => failed e _) (fun _ _ _ => trivial) (fun _ _ h => h)

theorem setFieldInstruction [Nonempty ι] (operands : w.memory.HasWords 3)
    (uniform : Subsingleton ι ∨ ∀ cs v u, w.memory.cells = cs ++ [v, u] → ∃ y, v = .raw y)
    (failed : ∀ e A, fail e A) :
    Lockstep limit w (fun _ => Machine.setField) (fun _ _ => True) fail := by
  refine bind (popRef (operands.mono (by omega)) fun e => failed e _) ?_
  rintro w₁ new ⟨cs, u, eq, rfl, plain_new, new_value⟩
  refine bind (popWord ((operands.mono (k := 2) (by omega)).pop eq) fun e => failed e _) ?_
  rintro w₂ index ⟨cs', v, eq', rfl, -, at_index⟩
  have stacked : w.memory.cells = cs' ++ [v, u] := by
    rw [eq, show cs = cs' ++ [v] from eq', List.append_assoc]
    rfl
  obtain ⟨y, rfl⟩ := uniform_index at_index (uniform.imp_right fun h => h cs' v u stacked)
  refine bind (popRef ((operands.pop eq).pop eq') fun e => failed e _) ?_
  rintro w₃ object ⟨cs'', o, eq'', rfl, plain, value⟩
  refine bind (show Lockstep limit _ _ (fun w' _ => w' = _) fail from
    memoryQuery (Answers.header value (by rintro y rfl; exact plain)) (fun _ _ => rfl)
      fun e => failed e _) ?_
  rintro w₄ header rfl
  refine bind (liftExcept (Machine.fieldIndex y) failed) ?_
  rintro w₅ - ⟨field, rfl, rfl⟩
  refine bind (setField value plain new_value plain_new fun e => failed e _) ?_
  rintro w₆ stored outcome
  have same : ∃ b, stored = fun _ => b := by
    rcases outcome with ⟨-, rfl⟩ | ⟨rfl, -⟩
    · exact ⟨false, rfl⟩
    · exact ⟨true, rfl⟩
  obtain ⟨b, rfl⟩ := same
  cases b with
  | false => exact of_throw (fun _ _ => rfl) fun _ => failed _ _
  | true => exact of_pure trivial

theorem setFirstWord (value : Word) (operands : w.memory.HasWords 1)
    (bytes : ∀ cs id, w.memory.cells = cs ++ [.object id] →
      ∃ xs, (w.memory.store id).content = .bytes xs) (failed : ∀ e A, fail e A) :
    Lockstep limit w (fun _ => Machine.setFirstWord value) (fun _ _ => True) fail := by
  refine bind (popRef operands fun e => failed e _) ?_
  rintro w₁ object ⟨cs, v, eq, rfl, plain, at_object⟩
  refine bind (setPayload at_object plain ?_ fun e => failed e _) ?_
  · rintro id rfl
    exact bytes cs id eq
  · rintro w₂ - ⟨b, rfl⟩
    cases b with
    | false => exact of_throw (fun _ _ => rfl) fun _ => failed _ _
    | true => exact of_pure trivial

/-! ### Arithmetic and jumps -/

/-- Two Integers from the stack. -/
theorem popIntegers {f : Word → Word → Machine.Run α}
    (operands : w.memory.HasWords (if w.memory.integerOnTop then 2 else 1))
    (failed : ∀ e A, fail e A)
    (next : ∀ w' right left, Lockstep limit w' (fun _ => f right left) post fail) :
    Lockstep limit w (fun _ => do
      let right ← Machine.popInteger
      let left ← Machine.popInteger
      f right left) post fail := by
  refine bind (popInteger (operands.mono (by split <;> omega)) failed) ?_
  rintro w₁ - ⟨cs, v, right, eq, rfl, rfl, found⟩
  rw [integerOnTop_of_integer? eq found] at operands
  refine bind (popInteger (operands.pop eq) failed) ?_
  rintro w₂ - ⟨cs', v', left, eq', rfl, rfl, -⟩
  exact next _ right left

theorem arithmetic (op : Arithmetic)
    (operands : w.memory.HasWords (if w.memory.integerOnTop then 2 else 1))
    (failed : ∀ e A, fail e A) :
    Lockstep limit w (fun _ => Machine.arithmetic op) (fun _ _ => True) fail := by
  refine popIntegers operands failed ?_
  intro w' right left
  refine bind (liftExcept (op.apply left right) failed) ?_
  rintro w₁ - ⟨n, rfl, rfl⟩
  exact pushInteger n failed

theorem setPc (pc : CodeAddress) :
    Lockstep limit w (fun _ => (Memory.setPc pc : Machine.Run Unit))
      (fun w' _ => w' = { w with memory := { w.memory with pc := pc } }) fail := by
  refine of_valid fun valid => memory (P := fun _ _ => True) (A := { w.memory with pc := pc })
    { valid with } ?_ (fun _ _ => rfl)
  intro m holds i
  exact ⟨(), _, rfl, { holds.shows_ i with pc := rfl }, rfl, trivial⟩

theorem jump (offset : Word) :
    Lockstep limit w (fun _ => Machine.jump offset) (fun _ _ => True) fail := by
  refine get_bind ?_
  intro m holds
  simp only [fun i => (holds.shows_ i).pc]
  exact mono (setPc _) (fun _ _ _ => trivial) (fun _ _ h => h)

/-! ### Frames -/

theorem leave (entryBase : Word) (failed : ∀ e A, fail e A) :
    Lockstep limit w (fun _ => Machine.leave entryBase)
      (fun w' a => ∃ flow cells bp bases pc, a = (fun _ => flow) ∧ w' = { w with memory :=
        { w.memory with cells := cells, bp := bp, bases := bases, pc := pc } }) fail := by
  refine get_bind ?_
  intro m holds
  simp only [fun i => (holds.shows_ i).stack.bp_eq]
  refine bind (discardFrame fun e => failed e _) ?_
  rintro w₁ - ⟨r, cells, bp, bases, rfl, rfl⟩
  cases r with
  | none => exact of_pure ⟨.stop, cells, bp, bases, w.memory.pc, rfl, rfl⟩
  | some returnTo =>
    by_cases outermost : w.memory.bp = entryBase
    · simp only [outermost, if_true]
      exact of_pure ⟨.stop, cells, bp, bases, w.memory.pc, rfl, rfl⟩
    · simp only [outermost, if_false]
      refine bind (setPc returnTo) ?_
      rintro w₂ - rfl
      exact of_pure ⟨.next, cells, bp, bases, returnTo, rfl, rfl⟩

theorem send [Nonempty ι] (selector : String) {r : ι → Ref}
    (value : ∀ i, (w.place i).word? v = some (r i).word)
    (plain : w.memory.Plain (Harmless limit) v) (failed : ∀ e A, fail e A) :
    Lockstep limit w (fun i => Machine.send (r i) selector) (fun _ _ => True) fail := by
  refine of_valid fun valid => ?_
  refine bind (ask (Answers.lookup valid selector value plain) fun e => failed e _) ?_
  rintro w₁ - ⟨rfl, method, rfl⟩
  refine bind (note _) ?_
  rintro w₂ - rfl
  refine bind (pushRef value plain fun e => failed e _) ?_
  rintro w₃ - rfl
  refine bind (newFrame method.locals fun _ e => failed e _) ?_
  rintro w₄ - ⟨cells, bp, bases, rfl⟩
  exact mono (setPc method.entry) (fun _ _ _ => trivial) (fun _ _ h => h)

/-! ### Instances -/

theorem instantiate (id : ClassId) (failed : ∀ e A, fail e A) :
    Lockstep limit w (fun _ => Machine.instantiate id) (fun _ _ => True) fail := by
  refine of_valid fun valid => bind (classRefOrNull (some id) fun _ _ => failed _ _) ?_
  rintro w₁ r ⟨rfl, v, found, value⟩
  obtain ⟨cid, entry, rfl⟩ := Option.map_eq_some_iff.1 found
  refine bind (ask (Answers.instanceSize valid value (List.mem_of_getElem? entry))
    fun e => failed e _) ?_
  rintro w₂ - ⟨rfl, size, rfl⟩
  refine bind (newObject id size fun e => failed e _) ?_
  rintro w₃ r' ⟨cls, -, made⟩
  exact pushMade valid made failed

/-! ### Steps -/

theorem and_then {x : ι → Machine.Run α} {flow : Flow} {mid : World ι → (ι → α) → Prop}
    (h : Lockstep limit w x mid fail) :
    Lockstep limit w (fun i => do let _ ← x i; return flow)
      (fun _ a => ∃ flow, a = fun _ => flow) fail := by
  refine bind h ?_
  intro w' a _
  exact of_pure ⟨flow, rfl⟩

/-- **One instruction.**  All machines go on, or all stop. -/
theorem step [Nonempty ι] (entryBase : Word) (instruction : Instruction)
    (careful : w.Careful limit instruction)
    (indexed : Subsingleton ι ∨ w.memory.Indexed instruction) (failed : ∀ e A, fail e A) :
    Lockstep limit w (fun _ => Machine.step entryBase instruction)
      (fun _ a => ∃ flow, a = fun _ => flow) fail := by
  have operands := careful.operands
  cases instruction with
  | halt => exact of_pure ⟨.stop, rfl⟩
  | syscall id => exact and_then (invoke id operands failed)
  | call selector =>
    refine bind (ask (Answers.textConstant selector) fun e => failed e _) ?_
    rintro w₁ - ⟨rfl, name, rfl, found⟩
    have demand : w₁.demand (.call selector) = 1 := by
      change (if (w₁.memory.text? selector).isSome then 1 else 0) = 1
      rw [found]
      rfl
    refine bind (popRef (demand ▸ operands) fun e => failed e _) ?_
    rintro w₂ r ⟨cs, v, eq, rfl, plain, value⟩
    exact and_then (send name value plain failed)
  | ret =>
    refine mono (leave entryBase failed) ?_ (fun _ _ h => h)
    rintro w' a ⟨flow, -, -, -, -, rfl, -⟩
    exact ⟨flow, rfl⟩
  | retTop =>
    refine bind (popRef operands fun e => failed e _) ?_
    rintro w₁ r ⟨cs, v, eq, rfl, plain, value⟩
    refine bind (leave entryBase failed) ?_
    rintro w₂ - ⟨flow, cells, bp, bases, pc, rfl, rfl⟩
    exact and_then (pushRef value plain fun e => failed e _)
  | new index => exact and_then (instantiate ⟨index⟩ failed)
  | getField =>
    exact and_then (getField operands (indexed.imp_right fun h => h.get rfl) failed)
  | setField =>
    exact and_then (setFieldInstruction operands (indexed.imp_right fun h => h.set rfl) failed)
  | setBytes value =>
    exact and_then (setFirstWord value operands (careful.bytes value rfl) failed)
  | pushRef address =>
    exact and_then (pushRef (v := .raw address) (r := fun _ => ⟨address⟩) (fun _ => rfl)
      (careful.literal address rfl) fun e => failed e _)
  | popRef => exact and_then (popRef operands fun e => failed e _)
  | pushInt value =>
    exact and_then (pushWord (v := .raw value) (x := fun _ => value) (fun _ => rfl)
      (careful.literal value rfl) fun e => failed e _)
  | popInt => exact and_then (popWord operands fun e => failed e _)
  | storeLocal index =>
    refine bind (popRef operands fun e => failed e _) ?_
    rintro w₁ r ⟨cs, v, eq, rfl, plain, value⟩
    exact and_then (setLocal ((careful.slot index rfl).pop eq) value plain fun e => failed e _)
  | loadLocal index =>
    refine bind (getLocal (careful.slot index rfl) fun e => failed e _) ?_
    rintro w₁ r ⟨rfl, v, plain, value⟩
    exact and_then (pushRef value plain fun e => failed e _)
  | storeArg index address =>
    exact and_then (setArg (v := .raw address) (r := fun _ => ⟨address⟩) (careful.argument index rfl)
      (fun _ => rfl) (careful.literal address rfl) fun e => failed e _)
  | loadArg index =>
    refine bind (arg (careful.argument index rfl) fun e => failed e _) ?_
    rintro w₁ r ⟨rfl, v, plain, value⟩
    exact and_then (pushRef value plain fun e => failed e _)
  | addInt => exact and_then (arithmetic .add operands failed)
  | subInt => exact and_then (arithmetic .sub operands failed)
  | mulInt => exact and_then (arithmetic .mul operands failed)
  | divInt => exact and_then (arithmetic .div operands failed)
  | modInt => exact and_then (arithmetic .mod operands failed)
  | newInt value => exact and_then (pushInteger value failed)
  | newStr text =>
    refine bind (ask (Answers.textConstant text) fun e => failed e _) ?_
    rintro w₁ - ⟨rfl, text, rfl, -⟩
    exact and_then (pushString (Utf8.encode text) failed)
  | newArr length =>
    refine bind (ask (Answers.lengthConstant length) fun e => failed e _) ?_
    rintro w₁ - ⟨rfl, length, rfl⟩
    refine of_valid fun valid => ?_
    refine bind (newArray length (fun _ _ => failed _ _) fun _ _ => failed _ _) ?_
    rintro w₂ r ⟨cls, -, made⟩
    exact and_then (pushMade valid made failed)
  | jump offset => exact and_then (jump offset)
  | branch condition offset =>
    refine popIntegers operands failed ?_
    intro w' right left
    cases condition.holds left right with
    | true => exact and_then (jump offset)
    | false => exact of_pure ⟨.next, rfl⟩

/-! ### Fetching -/

/-- Reading code at the program counter and moving past it. -/
theorem fetching {f : CodeArena → CodeAddress → Except MemoryError α} (length : Word)
    (failed : ∀ e A, fail e A) :
    Lockstep limit w (fun _ => ((do
        let pc := (← get).pc
        let x ← Memory.query fun m => f m.code pc
        Memory.setPc (pc.advance length)
        return x : Memory.Run α) : Machine.Run α))
      (fun w' a => ∃ x pc, a = (fun _ => x) ∧
        w' = { w with memory := { w.memory with pc := pc } }) fail := by
  have read : ∀ m, w.Holds limit m → ∀ i, f (m i).memory.code (m i).memory.pc =
      f w.memory.code w.memory.pc := by
    intro m holds i
    rw [(holds.shows_ i).code, (holds.shows_ i).pc]
  cases result : f w.memory.code w.memory.pc with
  | error e =>
    refine memory_error (e := fun _ => e) ?_ (fun _ _ => rfl) fun _ => failed _ _
    intro m holds i
    rw [run_get_bind]
    exact run_bind_error (Memory.query_error ((read m holds i).trans result))
  | ok x =>
    refine of_valid fun valid => memory (P := fun _ y => y = x)
      (A := { w.memory with pc := w.memory.pc.advance length }) { valid with } ?_
      (fun a all => ⟨x, _, funext all, rfl⟩)
    intro m holds i
    refine ⟨x, { (m i).memory with pc := (m i).memory.pc.advance length }, ?_,
      { holds.shows_ i with pc := congrArg (CodeAddress.advance · length) (holds.shows_ i).pc },
      rfl, rfl⟩
    rw [run_get_bind, run_bind_ok (Memory.query_ok ((read m holds i).trans result))]
    rfl

theorem fetchByte (failed : ∀ e A, fail e A) :
    Lockstep limit w (fun _ => (Memory.fetchByte : Machine.Run UInt8))
      (fun w' a => ∃ x pc, a = (fun _ => x) ∧
        w' = { w with memory := { w.memory with pc := pc } }) fail :=
  fetching (f := CodeArena.byteAt) 1 failed

theorem fetchWord (failed : ∀ e A, fail e A) :
    Lockstep limit w (fun _ => (Memory.fetchWord : Machine.Run Word))
      (fun w' a => ∃ x pc, a = (fun _ => x) ∧
        w' = { w with memory := { w.memory with pc := pc } }) fail :=
  fetching (f := CodeArena.wordAt) 4 failed

theorem readInstruction (op : Opcode) (failed : ∀ e A, fail e A) :
    Lockstep limit w
      (fun _ => (Instruction.read op (Memory.fetchWord : Machine.Run Word) : Machine.Run Instruction))
      (fun w' a => ∃ instruction pc, a = (fun _ => instruction) ∧
        w' = { w with memory := { w.memory with pc := pc } }) fail := by
  have none (instruction : Instruction) : Lockstep limit w
      (fun _ => (Pure.pure instruction : Machine.Run Instruction))
      (fun w' a => ∃ instruction pc, a = (fun _ => instruction) ∧
        w' = { w with memory := { w.memory with pc := pc } }) fail :=
    of_pure ⟨instruction, w.memory.pc, rfl, rfl⟩
  have one (make : Word → Instruction) : Lockstep limit w
      (fun _ => (do return make (← Memory.fetchWord) : Machine.Run Instruction))
      (fun w' a => ∃ instruction pc, a = (fun _ => instruction) ∧
        w' = { w with memory := { w.memory with pc := pc } }) fail := by
    refine bind (fetchWord failed) ?_
    rintro w₁ - ⟨x, pc, rfl, rfl⟩
    exact of_pure ⟨make x, pc, rfl, rfl⟩
  cases op with
  | storeArg =>
    refine bind (fetchWord failed) ?_
    rintro w₁ - ⟨x, pc, rfl, rfl⟩
    refine bind (fetchWord failed) ?_
    rintro w₂ - ⟨y, pc', rfl, rfl⟩
    exact of_pure ⟨.storeArg x y, pc', rfl, rfl⟩
  | _ => first | exact none _ | exact one _

theorem fetch (failed : ∀ e A, fail e A) :
    Lockstep limit w (fun _ => Machine.fetch)
      (fun w' a => ∃ instruction pc, a = (fun _ => instruction) ∧
        w' = { w with memory := { w.memory with pc := pc } }) fail := by
  refine get_bind ?_
  intro m holds
  refine bind (fetchByte failed) ?_
  rintro w₁ - ⟨x, pc, rfl, rfl⟩
  simp only [fun i => (holds.shows_ i).pc]
  cases Opcode.ofByte? x with
  | none => exact of_throw (fun _ _ => rfl) fun _ => failed _ _
  | some op => exact readInstruction op failed

end Lockstep

end ObjectMachine
