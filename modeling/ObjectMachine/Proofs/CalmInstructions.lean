/-
  ObjectMachine/Proofs/CalmInstructions.lean
  ==========================================
  **Instructions that stay in their frame** — all but those that call, return, halt or set an
  argument.

  One lemma for each part that services and instructions are made of says how many operands it
  takes and leaves.  An instruction that pops two operands pops the second only if the first
  is of the right kind, so what it asks of the stack depends on what is on top of it.
-/
import ObjectMachine.Proofs.Relocation

namespace ObjectMachine

/-- An instruction that neither calls, returns nor halts, and sets no argument. -/
def Instruction.isPlain : Instruction → Bool
  | .halt | .call _ | .ret | .retTop | .storeArg _ _ => false
  | _ => true

namespace Machine

open ObjectMachine.Memory (Within)

variable {α β : Type} {base : Nat} {outer : List Nat} {k k' low : Nat} {m : Machine}

/-! ### Parts -/

/-- An operation of the memory, as one of the machine. -/
theorem calm_lift {act : Memory.Run α} (h : Calm id base outer k act k' low) :
    Calm memory base outer k (onMemory act) k' low := by
  intro m nested words
  have h := h m.memory nested words
  cases run : act m.memory with
  | ok a x =>
    rw [run] at h
    rw [Lockstep.onMemory_ok run]
    exact h
  | error e x =>
    rw [run] at h
    rw [Lockstep.onMemory_error run]
    exact h

theorem calm_query (f : Memory → Except MachineError α) (le : low ≤ k) :
    Calm memory base outer k (query f) k low := by
  refine .idle (fun m => ?_) le
  unfold query
  split <;> rfl

theorem calm_liftExcept (r : Except MachineError α) (le : low ≤ k) :
    Calm memory base outer k (liftExcept r) k low := by
  cases r with
  | ok a => exact .pure a le
  | error e => exact .throw e le

theorem calm_liftHost (r : Except HostError α) (le : low ≤ k) :
    Calm memory base outer k (liftHost r) k low := by
  cases r with
  | ok a => exact .pure a le
  | error e => exact .throw _ le

theorem calm_note (event : Event) (le : low ≤ k) :
    Calm memory base outer k (onMemory (Memory.note event)) k low :=
  calm_lift (Memory.calm_note event le)

theorem calm_pushRef (r : Ref) (le : low ≤ k) :
    Calm memory base outer k (onMemory (Memory.pushRef r)) (k + 1) low :=
  calm_lift (Memory.calm_pushWord r.word le)

theorem calm_popWord (le : low ≤ k) : Calm memory base outer (k + 1) (onMemory Memory.popWord) k low :=
  calm_lift (Memory.calm_popWord le)

theorem calm_popRef (le : low ≤ k) : Calm memory base outer (k + 1) (onMemory Memory.popRef) k low :=
  calm_lift ((Memory.calm_popWord le).bind fun _ => .pure _ le)

theorem calm_popInteger (le : low ≤ k) : Calm memory base outer (k + 1) popInteger k low :=
  (calm_popRef le).bind fun _ => calm_query _ le

theorem calm_popString (le : low ≤ k) : Calm memory base outer (k + 1) popString k low :=
  (calm_popRef le).bind fun _ => calm_query _ le

/-! ### New objects -/

theorem calm_newObject (id : ClassId) (size : Word) (le : low ≤ k) :
    Calm memory base outer k (newObject id size) k low :=
  (calm_lift (Memory.calm_allocateObject _ _ _ le)).bind fun _ => .get_bind fun _ =>
    (calm_note _ le).bind fun _ => .pure _ le

theorem calm_fillPayload (addr : Ref) (xs : List UInt8) (le : low ≤ k) :
    Calm memory base outer k (fillPayload addr xs) k low := by
  refine .of_within le fun m nested => ?_
  cases found : m.memory.header addr with
  | error e =>
    have failed : fillPayload addr xs m = .error (.memory e) m :=
      run_bind_error (Lockstep.onMemory_error (Memory.query_error found))
    rw [failed]
    exact ⟨.refl nested, rfl, rfl⟩
  | ok header =>
    have known : (Memory.query (·.header addr) : Run Header) m = .ok header m :=
      Lockstep.onMemory_ok (Memory.query_ok found)
    unfold fillPayload
    rw [run_bind_ok known]
    split
    · rename_i fits
      -- what `setPayload` does to an object of this size
      have stored : Memory.setPayload addr 0 xs m.memory = .ok true { m.memory with
          space := m.memory.space.mapBytes (Object.setPayload · addr 0 xs) } :=
        Memory.setPayload_of_fits found (by omega)
      have after : m.memory.after (.write addr (.payload 0 xs)) = { m.memory with
          space := m.memory.space.mapBytes (Object.setPayload · addr 0 xs) } :=
        (endState_ignored _ m.memory).trans (congrArg endState stored)
      have within := Within.operation nested _ (Memory.stack_after_write m.memory addr (.payload 0 xs))
      rw [after] at within
      exact ⟨within, rfl, rfl⟩
    · exact ⟨.refl nested, rfl, rfl⟩

theorem calm_newInteger (value : Word) (le : low ≤ k) :
    Calm memory base outer k (newInteger value) k low :=
  .get_bind fun _ => (calm_lift (Memory.calm_allocateObject _ _ _ le)).bind fun _ =>
    (calm_fillPayload _ _ le).bind fun _ => (calm_note _ le).bind fun _ => .pure _ le

theorem calm_newString (bytes : List UInt8) (le : low ≤ k) :
    Calm memory base outer k (newString bytes) k low :=
  .get_bind fun _ => (calm_lift (Memory.calm_allocateObject _ _ _ le)).bind fun _ =>
    (calm_fillPayload _ _ le).bind fun _ => (calm_note _ le).bind fun _ => .pure _ le

theorem calm_newArray (length : Word) (le : low ≤ k) :
    Calm memory base outer k (newArray length) k low :=
  .get_bind fun _ => (calm_lift (Memory.calm_allocateObject _ _ _ le)).bind fun _ =>
    (calm_note _ le).bind fun _ => .pure _ le

theorem calm_pushInteger (value : Word) (le : low ≤ k) :
    Calm memory base outer k (pushInteger value) (k + 1) low :=
  (calm_newInteger value le).bind fun _ => calm_pushRef _ le

theorem calm_pushString (bytes : List UInt8) (le : low ≤ k) :
    Calm memory base outer k (pushString bytes) (k + 1) low :=
  (calm_newString bytes le).bind fun _ => calm_pushRef _ le

/-! ### Services -/

theorem calm_write (xs : List UInt8) (le : low ≤ k) : Calm memory base outer k (write xs) k low := by
  refine .idle (fun m => ?_) le
  cases m with
  | mk mem known services output files directory =>
    unfold write
    dsimp only
    split <;> rfl

theorem calm_printLine (text : List UInt8) (le : low ≤ k) :
    Calm memory base outer k (printLine text) k low :=
  (calm_write _ le).bind fun _ => calm_write _ le

theorem calm_insertFile (file : OpenFile) (le : low ≤ k) :
    Calm memory base outer k (insertFile file) k low := .idle (fun _ => rfl) le

theorem calm_setFile (handle : Word) (entry : Option OpenFile) (le : low ≤ k) :
    Calm memory base outer k (setFile handle entry) k low := .idle (fun _ => rfl) le

theorem calm_reader (handle : Word) (le : low ≤ k) :
    Calm memory base outer k (reader handle) k low := by
  refine .get_bind fun m => ?_
  split
  · exact .pure _ le
  · exact .throw _ le

theorem calm_writer (handle : Word) (le : low ≤ k) :
    Calm memory base outer k (writer handle) k low := by
  refine .get_bind fun m => ?_
  split
  · exact .pure _ le
  · exact .throw _ le

theorem calm_popPath (le : low ≤ k) : Calm memory base outer (k + 1) popPath k low :=
  (calm_popString le).bind fun _ => .pure _ le

theorem calm_openReader : Calm memory base outer 1 openReader 1 0 :=
  (calm_popPath (Nat.zero_le _)).bind fun _ => .get_bind fun _ =>
    (calm_liftHost _ (Nat.zero_le _)).bind fun _ => (calm_insertFile _ (Nat.zero_le _)).bind fun _ =>
      (calm_note _ (Nat.zero_le _)).bind fun _ => calm_pushInteger _ (Nat.zero_le _)

theorem calm_openWriter : Calm memory base outer 1 openWriter 1 0 :=
  (calm_popPath (Nat.zero_le _)).bind fun _ => .get_bind fun _ =>
    (calm_liftHost _ (Nat.zero_le _)).bind fun _ =>
      (Calm.idle (fun _ => rfl) (Nat.zero_le _)).bind fun _ =>
        (calm_insertFile _ (Nat.zero_le _)).bind fun _ =>
          (calm_note _ (Nat.zero_le _)).bind fun _ => calm_pushInteger _ (Nat.zero_le _)

theorem calm_closeReader : Calm memory base outer 1 closeReader 0 0 :=
  (calm_popInteger (Nat.zero_le _)).bind fun _ => (calm_reader _ (Nat.zero_le _)).bind fun _ =>
    calm_setFile _ _ (Nat.zero_le _)

theorem calm_withWriter (handle : Word) (act : Writer.Run Unit) (le : low ≤ k) :
    Calm memory base outer k (withWriter handle act) k low :=
  (calm_writer _ le).bind fun _ => .get_bind fun _ => (Calm.idle (fun _ => rfl) le).bind fun _ =>
    (calm_setFile _ _ le).bind fun _ => calm_liftHost _ le

theorem calm_closeWriter : Calm memory base outer 1 closeWriter 0 0 :=
  (calm_popInteger (Nat.zero_le _)).bind fun _ => (calm_withWriter _ _ (Nat.zero_le _)).bind fun _ =>
    calm_setFile _ _ (Nat.zero_le _)

theorem calm_readLine : Calm memory base outer 1 readLine 1 0 := by
  refine (calm_popInteger (Nat.zero_le _)).bind fun _ => (calm_reader _ (Nat.zero_le _)).bind fun _ =>
    .get_bind fun _ => (calm_setFile _ _ (Nat.zero_le _)).bind fun _ =>
      (calm_liftHost _ (Nat.zero_le _)).bind fun line => ?_
  cases line with
  | none => exact calm_pushRef _ (Nat.zero_le _)
  | some line => exact calm_pushString _ (Nat.zero_le _)

theorem calm_storeParts (index : Nat) (parts : List (List UInt8)) :
    Calm memory base outer k (storeParts index parts) k k := by
  induction parts generalizing index with
  | nil => exact .pure () (Nat.le_refl _)
  | cons part rest ih =>
    exact (calm_newString part (Nat.le_refl _)).bind fun _ =>
      (calm_lift (Memory.calm_query _ (Nat.le_refl _))).bind fun _ =>
        (calm_lift (Memory.calm_setField _ _ _ (Nat.le_refl _))).bind fun _ => ih (index + 1)

/-- What is rooted is popped again, also if what was done meanwhile has failed. -/
theorem calm_withRooted (addr : Ref) {act : Run α}
    (h : Calm memory base outer (k + 1) act (k + 1) (k + 1)) (le : low ≤ k) :
    Calm memory base outer k (withRooted addr act) k low := by
  have attempted : Calm memory base outer (k + 1) (withRooted.attempt act) (k + 1) low := by
    intro m nested words
    have h := h m nested words
    unfold withRooted.attempt
    split
    · rename_i run
      rw [run] at h
      exact h
    · rename_i run
      rw [run] at h
      exact h
  refine (calm_pushRef addr le).bind fun _ => attempted.bind fun result =>
    (calm_popRef le).bind fun addr => ?_
  cases result with
  | ok a => exact .pure _ le
  | error e => exact .throw _ le

theorem calm_splitString : Calm memory base outer 1 splitString 1 0 :=
  (calm_popString (Nat.zero_le _)).bind fun _ => (calm_newArray _ (Nat.zero_le _)).bind fun _ =>
    (calm_withRooted _ (calm_storeParts _ _) (Nat.zero_le _)).bind fun _ =>
      calm_pushRef _ (Nat.zero_le _)

/-! ### Two operands -/

/-- Popping succeeds only if what is on top is what is asked for. -/
theorem aboutTop_of_pop {f : Memory → Ref → Except MachineError α} {a : α} {m' : Machine}
    (blind : ∀ (x : Memory) (s : FrameStack) (r : Ref), f { x with stack := s } r = f x r)
    (nested : m.memory.stack.Nested (base :: outer)) (words : m.memory.stack.HasWords 1)
    (run : (do let addr ← Memory.popRef; query (f · addr) : Run α) m = .ok a m') :
    (m.aboutTop f).isOk = true := by
  obtain ⟨w, top, -, popped⟩ := Memory.popWord_eq nested words
  have popped : (Memory.popRef : Run Ref) m = .ok ⟨w⟩ { m with memory := { m.memory with
      stack := ⟨m.memory.stack.bytes, m.memory.stack.sp - 4, m.memory.stack.bp⟩ } } :=
    Lockstep.onMemory_ok (run_bind_ok popped)
  rw [run_bind_ok popped] at run
  unfold query at run
  dsimp only at run
  rw [blind] at run
  unfold aboutTop
  rw [top, liftMemory, ok_bind]
  cases found : f m.memory ⟨w⟩ with
  | ok a => rfl
  | error e =>
    rw [found] at run
    cases run

/-- An operation that pops two operands, the second if the first is the right one. -/
theorem calmEnd_of_two {x : Run α} {f : α → Run β} {right : Bool}
    (pops : ∀ {k : Nat}, Calm memory base outer (k + 1) x k 0)
    (rest : ∀ a, Calm memory base outer 1 (f a) k' 0)
    (asked : m.memory.stack.HasWords 1 → ∀ a m', x m = .ok a m' → right = true)
    (nested : m.memory.stack.Nested (base :: outer))
    (words : m.memory.stack.HasWords (if right then 2 else 1)) :
    CalmEnd memory base outer m.memory k' 0 ((x >>= f) m) := by
  cases right with
  | true => exact (pops m nested words).bind rest
  | false =>
    have one := pops m nested words
    cases run : x m with
    | ok a m' => cases asked words a m' run
    | error e m' =>
      rw [run] at one
      rw [run_bind_error run]
      exact one

theorem integer_of_popInteger (nested : m.memory.stack.Nested (base :: outer))
    (words : m.memory.stack.HasWords 1) (a : Word) (m' : Machine) (run : popInteger m = .ok a m') :
    (m.aboutTop integerValue).isOk = true := aboutTop_of_pop (fun _ _ _ => rfl) nested words run

theorem string_of_popString (nested : m.memory.stack.Nested (base :: outer))
    (words : m.memory.stack.HasWords 1) (a : List UInt8) (m' : Machine)
    (run : popString m = .ok a m') : (m.aboutTop stringValue).isOk = true :=
  aboutTop_of_pop (fun _ _ _ => rfl) nested words run

/-! ### All services and plain instructions -/

/-- **A service** that finds its operands stays in the frame. -/
theorem calmEnd_perform (service : Service) (nested : m.memory.stack.Nested (base :: outer))
    (words : m.memory.stack.HasWords (service.demand (m.aboutTop stringValue).isOk)) :
    CalmEnd memory base outer m.memory 0 0 (perform service m) := by
  cases service with
  | print =>
    exact ((calm_popString (Nat.zero_le _)).bind fun _ => calm_printLine _ (Nat.zero_le _))
      m nested words
  | printInt =>
    exact ((calm_popInteger (Nat.zero_le _)).bind fun _ => calm_printLine _ (Nat.zero_le _))
      m nested words
  | openReader => exact calm_openReader.mono (Nat.zero_le _) m nested words
  | openWriter => exact calm_openWriter.mono (Nat.zero_le _) m nested words
  | closeReader => exact calm_closeReader m nested words
  | closeWriter => exact calm_closeWriter m nested words
  | readLine => exact calm_readLine.mono (Nat.zero_le _) m nested words
  | writeLine =>
    refine calmEnd_of_two (calm_popString (Nat.zero_le _)) (fun text => ?_)
      (string_of_popString nested) nested words
    exact (calm_popInteger (Nat.zero_le _)).bind fun _ => calm_withWriter _ _ (Nat.zero_le _)
  | stringLength =>
    exact ((calm_popString (Nat.zero_le _)).bind fun _ =>
      (calm_pushInteger _ (Nat.zero_le _)).mono (Nat.zero_le _)) m nested words
  | stringAppend =>
    refine calmEnd_of_two (calm_popString (Nat.zero_le _)) (fun first => ?_)
      (string_of_popString nested) nested words
    exact (calm_popString (Nat.zero_le _)).bind fun _ =>
      (calm_pushString _ (Nat.zero_le _)).mono (Nat.zero_le _)
  | arrayLength =>
    exact ((calm_popRef (Nat.zero_le _)).bind fun _ => (calm_query _ (Nat.zero_le _)).bind fun _ =>
      (calm_pushInteger _ (Nat.zero_le _)).mono (Nat.zero_le _)) m nested words
  | stringSplit => exact calm_splitString.mono (Nat.zero_le _) m nested words
  | idle => exact Calm.pure () (Nat.zero_le _) m nested words
  | collect => exact calm_lift (Memory.calm_collect (Nat.zero_le _)) m nested words

theorem calmEnd_invoke (id : Word) (nested : m.memory.stack.Nested (base :: outer))
    (words : m.memory.stack.HasWords (m.demand (.syscall id))) :
    CalmEnd memory base outer m.memory 0 0 (invoke id m) := by
  unfold demand at words
  rw [Instruction.demand_syscall] at words
  unfold invoke
  rw [run_get_bind]
  cases found : m.services.get? id with
  | none => exact ⟨.refl nested, HasWords.mono_words words (Nat.zero_le _)⟩
  | some entry =>
    rw [found] at words
    let noted : Machine := { m with memory :=
      { m.memory with journal := m.memory.journal.note (.service entry.id entry.name) } }
    have first : Within base outer m.memory noted.memory := .note nested _
    have here : CalmEnd memory base outer noted.memory 0 0 (perform entry.service noted) :=
      calmEnd_perform entry.service nested words
    exact here.after first

theorem calm_jump (offset : Word) (le : low ≤ k) : Calm memory base outer k (jump offset) k low :=
  .get_bind fun _ => calm_lift (Memory.calm_setPc _ le)

theorem calmEnd_arithmetic (op : Arithmetic) (nested : m.memory.stack.Nested (base :: outer))
    (words : m.memory.stack.HasWords (if (m.aboutTop integerValue).isOk then 2 else 1)) :
    CalmEnd memory base outer m.memory 0 0 (arithmetic op m) := by
  refine calmEnd_of_two (calm_popInteger (Nat.zero_le _)) (fun right => ?_)
    (integer_of_popInteger nested) nested words
  exact (calm_popInteger (Nat.zero_le _)).bind fun _ =>
    (calm_liftExcept _ (Nat.zero_le _)).bind fun _ => (calm_pushInteger _ (Nat.zero_le _)).mono (Nat.zero_le _)

theorem calm_getField : Calm memory base outer 2 getField 1 0 :=
  (calm_popWord (Nat.zero_le _)).bind fun _ => (calm_popRef (Nat.zero_le _)).bind fun _ =>
    (calm_query _ (Nat.zero_le _)).bind fun _ => calm_pushRef _ (Nat.zero_le _)

theorem calm_setField : Calm memory base outer 3 setField 0 0 := by
  refine (calm_popRef (Nat.zero_le _)).bind fun _ => (calm_popWord (Nat.zero_le _)).bind fun _ =>
    (calm_popRef (Nat.zero_le _)).bind fun _ =>
      (calm_lift (Memory.calm_query _ (Nat.zero_le _))).bind fun _ =>
        (calm_liftExcept _ (Nat.zero_le _)).bind fun _ =>
          (calm_lift (Memory.calm_setField _ _ _ (Nat.zero_le _))).bind fun stored => ?_
  split
  · exact .throw _ (Nat.zero_le _)
  · exact .pure () (Nat.zero_le _)

theorem calm_setFirstWord (value : Word) : Calm memory base outer 1 (setFirstWord value) 0 0 := by
  refine (calm_popRef (Nat.zero_le _)).bind fun _ =>
    (calm_lift (Memory.calm_setPayload _ _ _ (Nat.zero_le _))).bind fun stored => ?_
  split
  · exact .throw _ (Nat.zero_le _)
  · exact .pure () (Nat.zero_le _)

theorem calm_instantiate (id : ClassId) : Calm memory base outer 0 (instantiate id) 1 0 :=
  (calm_lift (Memory.calm_query _ (Nat.zero_le _))).bind fun _ =>
    (calm_query _ (Nat.zero_le _)).bind fun _ => (calm_newObject _ _ (Nat.zero_le _)).bind fun _ =>
      calm_pushRef _ (Nat.zero_le _)

/-- **A plain instruction** that finds its operands stays in the frame. -/
theorem calmEnd_step (entryBase : Word) {i : Instruction} (plain : i.isPlain = true)
    (nested : m.memory.stack.Nested (base :: outer)) (words : m.memory.stack.HasWords (m.demand i)) :
    CalmEnd memory base outer m.memory 0 0 (step entryBase i m) := by
  have next : ∀ {k : Nat}, Calm memory base outer k (pure .next : Run Flow) 0 0 :=
    (Calm.pure _ (Nat.zero_le _)).mono (Nat.zero_le _)
  cases i with
  | halt | call | ret | retTop | storeArg => cases plain
  | syscall id => exact (calmEnd_invoke id nested words).bind fun _ => next
  | new index => exact (calm_instantiate _ m nested words).bind fun _ => next
  | getField => exact (calm_getField m nested words).bind fun _ => next
  | setField => exact (calm_setField m nested words).bind fun _ => next
  | setBytes value => exact (calm_setFirstWord value m nested words).bind fun _ => next
  | pushRef address => exact (calm_pushRef _ (Nat.zero_le _) m nested words).bind fun _ => next
  | popRef => exact (calm_popRef (Nat.zero_le _) m nested words).bind fun _ => next
  | pushInt value =>
    exact (calm_lift (Memory.calm_pushWord _ (Nat.zero_le _)) m nested words).bind fun _ => next
  | popInt => exact (calm_popWord (Nat.zero_le _) m nested words).bind fun _ => next
  | storeLocal index =>
    exact (calm_popRef (Nat.zero_le _) m nested words).bind fun _ =>
      (calm_lift (Memory.calm_setLocal _ _ (Nat.zero_le _))).bind fun _ => next
  | loadLocal index =>
    exact (calm_lift (Memory.calm_getLocal _ (Nat.zero_le _)) m nested words).bind fun _ =>
      (calm_pushRef _ (Nat.zero_le _)).bind fun _ => next
  | loadArg index =>
    exact (calm_lift (Memory.calm_arg _ (Nat.zero_le _)) m nested words).bind fun _ =>
      (calm_pushRef _ (Nat.zero_le _)).bind fun _ => next
  | addInt | subInt | mulInt | divInt | modInt =>
    exact (calmEnd_arithmetic _ nested words).bind fun _ => next
  | newInt value => exact (calm_pushInteger _ (Nat.zero_le _) m nested words).bind fun _ => next
  | newStr text =>
    exact (calm_query _ (Nat.zero_le _) m nested words).bind fun _ =>
      (calm_pushString _ (Nat.zero_le _)).bind fun _ => next
  | newArr length =>
    exact (calm_query _ (Nat.zero_le _) m nested words).bind fun _ =>
      (calm_newArray _ (Nat.zero_le _)).bind fun _ =>
        (calm_pushRef _ (Nat.zero_le _)).bind fun _ => next
  | jump offset => exact (calm_jump _ (Nat.zero_le _) m nested words).bind fun _ => next
  | branch condition offset =>
    refine calmEnd_of_two (calm_popInteger (Nat.zero_le _)) (fun right => ?_)
      (integer_of_popInteger nested) nested words
    refine (calm_popInteger (Nat.zero_le _)).bind fun left => ?_
    split
    · exact (calm_jump _ (Nat.zero_le _)).bind fun _ => next
    · exact next

/-- A plain instruction is followed by the next one. -/
theorem step_gives_next (entryBase : Word) {i : Instruction} (plain : i.isPlain = true) :
    Gives (· = .next) (step entryBase i) := by
  have next : Gives (· = .next) (pure .next : Run Flow) := gives_pure rfl
  cases i with
  | halt | call | ret | retTop | storeArg => cases plain
  | syscall | new | getField | setField | setBytes | pushRef | popRef | pushInt | popInt | addInt
  | subInt | mulInt | divInt | modInt | newInt | jump => exact gives_bind fun _ => next
  | storeLocal | loadLocal | loadArg | newStr => exact gives_bind fun _ => gives_bind fun _ => next
  | newArr => exact gives_bind fun _ => gives_bind fun _ => gives_bind fun _ => next
  | branch condition offset =>
    refine gives_bind fun right => gives_bind fun left => ?_
    split
    · exact gives_bind fun _ => next
    · exact next

end Machine

end ObjectMachine
