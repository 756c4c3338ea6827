/-
  ObjectMachine/Proofs/LockstepServices.lean
  ==========================================
  **Services in lockstep** — what the host does is the same for all machines.

  A service sees numbers and bytes only, never addresses, so files and output are the same
  afterwards.  The one service that keeps a reference across allocations is the one that
  splits a String; it keeps it on the stack.
-/
import ObjectMachine.Proofs.LockstepObjects

namespace ObjectMachine

open IdealMemory

namespace Lockstep

variable {ι α : Type} {limit : ι → Nat} {w : World ι} {post : World ι → (ι → α) → Prop}
  {fail : MachineError → IdealMemory → Prop} {v : Value}

/-! ### Arguments and results -/

theorem popInteger (operands : w.memory.HasWords 1) (failed : ∀ e A, fail e A) :
    Lockstep limit w (fun _ => Machine.popInteger)
      (fun w' a => ∃ cs v n, w.memory.cells = cs ++ [v] ∧
        w' = { w with memory := { w.memory with cells := cs } } ∧ a = (fun _ => n) ∧
        w.memory.integer? v = some n) fail := by
  refine bind (popRef operands fun e => failed e _) ?_
  rintro w' r ⟨cs, v, eq, rfl, plain, value⟩
  refine query (Answers.integerValue value (by rintro y rfl; exact plain)) ?_ fun e => failed e _
  rintro - ⟨n, rfl, found⟩
  exact ⟨cs, v, n, eq, rfl, rfl, found⟩

theorem popString (operands : w.memory.HasWords 1) (failed : ∀ e A, fail e A) :
    Lockstep limit w (fun _ => Machine.popString)
      (fun w' a => ∃ cs v xs, w.memory.cells = cs ++ [v] ∧
        w' = { w with memory := { w.memory with cells := cs } } ∧ a = (fun _ => xs) ∧
        w.memory.string? v = some xs) fail := by
  refine bind (popRef operands fun e => failed e _) ?_
  rintro w' r ⟨cs, v, eq, rfl, plain, value⟩
  refine query (Answers.stringValue value (by rintro y rfl; exact plain)) ?_ fun e => failed e _
  rintro - ⟨xs, rfl, found⟩
  exact ⟨cs, v, xs, eq, rfl, rfl, found⟩

/-- Pushing an object that has just been made. -/
theorem pushMade {w' : World ι} {o : Entity} {r : ι → Ref}
    (valid : w.memory.Valid (Harmless limit)) (made : w.Made o w' r) (failed : ∀ e A, fail e A) :
    Lockstep limit w' (fun i => (Memory.pushRef (r i) : Machine.Run Unit)) (fun _ _ => True) fail := by
  refine mono (pushRef (v := .object w.memory.next) ?_ ?_ fun e => failed e _) (fun _ _ _ => trivial)
    (fun _ _ h => h)
  · intro i
    exact Placement.word?_object (made.place i)
  · rw [made.memory]
    exact valid.plain_next o

theorem pushInteger (n : Word) (failed : ∀ e A, fail e A) :
    Lockstep limit w (fun _ => Machine.pushInteger n) (fun _ _ => True) fail := by
  refine of_valid fun valid => bind (newInteger n fun e A _ => failed e A) ?_
  rintro w' r ⟨cls, -, made⟩
  exact pushMade valid made failed

theorem pushString (xs : List UInt8) (failed : ∀ e A, fail e A) :
    Lockstep limit w (fun _ => Machine.pushString xs) (fun _ _ => True) fail := by
  refine of_valid fun valid => bind (newString xs fun e A _ => failed e A) ?_
  rintro w' r ⟨cls, -, made⟩
  exact pushMade valid made failed

/-! ### The host -/

/-- A machine with another host. -/
def onHost (m : Machine) (h : Host) : Machine :=
  ⟨m.memory, h.known, h.services, h.output, h.files, h.directory⟩

/-- An operation of the host. -/
theorem host {x : Machine.Run α} {F : Host → Except MachineError α × Host}
    (h : ∀ m, x m = match F m.host with
      | (.ok a, host) => .ok a (onHost m host)
      | (.error e, host) => .error e (onHost m host))
    (failed : ∀ e A, fail e A) :
    Lockstep limit w (fun _ => x) (fun w' a => ∃ r, a = (fun _ => r) ∧ w'.memory = w.memory) fail := by
  intro m holds
  have same : ∀ i, x (m i) = match F w.host with
      | (.ok a, host) => .ok a (onHost (m i) host)
      | (.error e, host) => .error e (onHost (m i) host) := by
    intro i
    rw [h, holds.host i]
  have again : ∀ host, World.Holds limit { w with host := host } fun i => onHost (m i) host :=
    fun host => ⟨holds.shows_, holds.size, fun _ => rfl, holds.valid⟩
  cases result : F w.host with
  | mk answer host =>
    rw [result] at same
    cases answer with
    | ok a =>
      exact Or.inr (Or.inl ⟨_, fun _ => a, fun i => onHost (m i) host, same, again host, a, rfl, rfl⟩)
    | error e =>
      exact Or.inr (Or.inr ⟨_, fun _ => e, fun i => onHost (m i) host, same, fun _ _ => rfl,
        again host, fun _ => failed _ _⟩)

theorem write (xs : List UInt8) (failed : ∀ e A, fail e A) :
    Lockstep limit w (fun _ => Machine.write xs) (fun _ _ => True) fail := by
  refine mono (host (F := fun h => ((match (h.output.write xs).1 with
      | .ok () => .ok ()
      | .error e => .error (.host e)), { h with output := (h.output.write xs).2 })) ?_ failed)
    (fun _ _ _ => trivial) (fun _ _ h => h)
  intro m
  unfold Machine.write
  dsimp only [Machine.host]
  rcases m.output.write xs with ⟨_ | _, output⟩ <;> rfl

theorem printLine (xs : List UInt8) (failed : ∀ e A, fail e A) :
    Lockstep limit w (fun _ => Machine.printLine xs) (fun _ _ => True) fail := by
  refine bind (write xs failed) ?_
  intro w' _ _
  exact write _ failed

theorem liftHost (x : Except HostError α) (failed : ∀ e A, fail e A) :
    Lockstep limit w (fun _ => Machine.liftHost x) (fun w' a => ∃ r, a = (fun _ => r) ∧ w' = w)
      fail := by
  cases x with
  | ok a => exact of_pure ⟨a, rfl, rfl⟩
  | error e => exact of_throw (fun _ _ => rfl) fun _ => failed _ _

theorem insertFile (file : OpenFile) (failed : ∀ e A, fail e A) :
    Lockstep limit w (fun _ => Machine.insertFile file)
      (fun w' a => ∃ r, a = (fun _ => r) ∧ w'.memory = w.memory) fail :=
  host (F := fun h => (.ok (h.files.insert file).1, { h with files := (h.files.insert file).2 }))
    (fun _ => rfl) failed

theorem setFile (handle : Word) (entry : Option OpenFile) (failed : ∀ e A, fail e A) :
    Lockstep limit w (fun _ => Machine.setFile handle entry)
      (fun w' a => ∃ r, a = (fun _ => r) ∧ w'.memory = w.memory) fail :=
  host (F := fun h => (.ok (), { h with files := h.files.set handle entry })) (fun _ => rfl) failed

theorem setDirectory (directory : Directory) (failed : ∀ e A, fail e A) :
    Lockstep limit w (fun _ => (modify fun m => { m with directory } : Machine.Run Unit))
      (fun w' a => ∃ r, a = (fun _ => r) ∧ w'.memory = w.memory) fail :=
  host (F := fun h => (.ok (), { h with directory })) (fun _ => rfl) failed

theorem reader (handle : Word) (failed : ∀ e A, fail e A) :
    Lockstep limit w (fun _ => Machine.reader handle) (fun w' a => ∃ r, a = (fun _ => r) ∧ w' = w)
      fail := by
  refine get_bind ?_
  intro m holds
  simp only [holds.files]
  cases w.host.files.reader? handle with
  | some r => exact of_pure ⟨r, rfl, rfl⟩
  | none => exact of_throw (fun _ _ => rfl) fun _ => failed _ _

theorem writer (handle : Word) (failed : ∀ e A, fail e A) :
    Lockstep limit w (fun _ => Machine.writer handle) (fun w' a => ∃ r, a = (fun _ => r) ∧ w' = w)
      fail := by
  refine get_bind ?_
  intro m holds
  simp only [holds.files]
  cases w.host.files.writer? handle with
  | some r => exact of_pure ⟨r, rfl, rfl⟩
  | none => exact of_throw (fun _ _ => rfl) fun _ => failed _ _

/-! ### A reference kept on the stack -/

/-- Looking at the top of the stack. -/
theorem peekTop {cs : List Value} (cells : w.memory.cells = cs ++ [v])
    (failed : ∀ e, fail e w.memory) :
    Lockstep limit w (fun _ => (Memory.query (·.peekRef 0) : Machine.Run Ref))
      (fun w' a => w' = w ∧ ∀ i, (w.place i).word? v = some (a i).word) fail := by
  refine memoryQuery ?_ (fun a h => ⟨rfl, h⟩) failed
  intro m holds
  choose y run value using fun i =>
    (holds.shows_ i).stack.peek_ok cells (by decide)
  refine Or.inl ⟨fun i => ⟨y i⟩, ?_, value⟩
  intro i
  have run : (m i).memory.stack.peek 0 = .ok (y i) := run i
  dsimp only [Memory.peekRef]
  rw [run]
  rfl

theorem popTop {A : IdealMemory} {η : Placement} {m : Machine} {cs : List Value}
    (shows_ : m.memory.Shows A η) (cells : A.cells = cs ++ [v]) :
    ∃ r m', (Memory.popRef : Machine.Run Ref) m = .ok r m' ∧
      m'.memory.Shows { A with cells := cs } η ∧
      m'.memory.space.bytes.size = m.memory.space.bytes.size := by
  obtain ⟨y, s', run, -, shows'⟩ := shows_.stack.pop_ok cells
  refine ⟨⟨y⟩, { m with memory := { m.memory with stack := s' } }, ?_, { shows_ with stack := shows' },
    rfl⟩
  exact onMemory_ok (run_bind_ok (Memory.onStack_ok run))

theorem attempt_ok {act : Machine.Run α} {m m' : Machine} {a : α} (h : act m = .ok a m') :
    Machine.withRooted.attempt act m = .ok (.ok a) m' := by
  unfold Machine.withRooted.attempt
  rw [h]

theorem attempt_error {act : Machine.Run α} {m m' : Machine} {e : MachineError}
    (h : act m = .error e m') : Machine.withRooted.attempt act m = .ok (.error e) m' := by
  unfold Machine.withRooted.attempt
  rw [h]

/-- **A rooted reference** is given back as it is after `act`, which has to leave the stack
    alone even if it fails. -/
theorem withRooted [Nonempty ι] {act : Machine.Run Unit} {r : ι → Ref}
    (value : ∀ i, (w.place i).word? v = some (r i).word)
    (plain : w.memory.Plain (Harmless limit) v) (failed : ∀ e A, fail e A)
    (body : Lockstep limit
      { w with memory := { w.memory with cells := w.memory.cells ++ [v] } } (fun _ => act)
      (fun w' _ => SameStack { w.memory with cells := w.memory.cells ++ [v] } w'.memory)
      (fun _ A => SameStack { w.memory with cells := w.memory.cells ++ [v] } A)) :
    Lockstep limit w (fun i => Machine.withRooted (r i) act)
      (fun w' a => w'.memory.Plain (Harmless limit) v ∧
        ∀ i, (w'.place i).word? v = some (a i).2.word) fail := by
  refine of_valid fun valid => bind (pushRef value plain fun e => failed e _) ?_
  rintro w₁ - rfl
  -- what follows `act`, on machines whose stack is as `act` has to leave it
  have after : ∀ (w₂ : World ι) (res : ι → Except MachineError Unit),
      SameStack { w.memory with cells := w.memory.cells ++ [v] } w₂.memory →
      ((∀ i, res i = .ok ()) ∨
        ∃ e : ι → MachineError, (∀ i, res i = .error (e i)) ∧ ∀ i j, (e i).kind = (e j).kind) →
      Lockstep limit w₂ (fun i => do
        let addr ← (Memory.popRef : Machine.Run Ref)
        match res i with
        | .ok a => return (a, addr)
        | .error e => throw e)
        (fun w' a => w'.memory.Plain (Harmless limit) v ∧
          ∀ i, (w'.place i).word? v = some (a i).2.word) fail := by
    intro w₂ res same results
    have operands : w₂.memory.HasWords 1 := by
      intro open_
      have floor := valid.framed.floor_le_length (same.bp ▸ open_)
      rw [same.bp, same.cells, List.length_append, List.length_singleton]
      dsimp only
      omega
    refine bind (popRef operands fun e => failed e _) ?_
    rintro w₃ a ⟨cs, v', eq, rfl, plain', value'⟩
    rw [same.cells] at eq
    obtain ⟨rfl, rfl⟩ : w.memory.cells = cs ∧ v = v' := by simpa using eq
    rcases results with succeeded | ⟨e, errors, kinds⟩
    · simp only [succeeded]
      exact of_pure ⟨plain', value'⟩
    · simp only [errors]
      exact of_throw kinds fun _ => failed _ _
  intro m holds
  rcases body m holds with exhausted | succeeds | fails
  · obtain ⟨i, n, available, m', A, η, run, shows_, size, valid', same⟩ := exhausted
    obtain ⟨addr, m'', popped, shows', size'⟩ := popTop shows_ same.cells
    have operand : ¬Control A.bases w.memory.cells.length := by
      rw [same.bases]
      intro control
      exact Nat.lt_irrefl _ (valid.framed.control_lt control)
    refine Or.inl ⟨i, n, available, m'', { A with cells := w.memory.cells }, η, ?_, shows',
      size'.trans size, valid'.pop same.cells operand, failed _ _⟩
    dsimp only
    rw [run_bind_ok (attempt_error run), run_bind_ok popped]
    rfl
  · obtain ⟨w₂, a, m₂, run, holds₂, same⟩ := succeeds
    exact congr_run (fun i => run_bind_ok (attempt_ok (run i)))
      (after w₂ (fun _ => .ok ()) same (Or.inl fun _ => rfl) m₂ holds₂)
  · obtain ⟨w₂, e, m₂, run, kinds, holds₂, same⟩ := fails
    obtain ⟨j⟩ := ‹Nonempty ι›
    exact congr_run (fun i => run_bind_ok (attempt_error (run i)))
      (after w₂ (fun i => .error (e i)) (same j) (Or.inr ⟨e, fun _ => rfl, kinds⟩) m₂ holds₂)

/-! ### Strings -/

/-- Filling the Array on top of the stack leaves the stack as it is, whatever happens. -/
theorem storeParts (parts : List (List UInt8)) (index : Nat) {cs : List Value}
    (cells : w.memory.cells = cs ++ [v]) (operand : ¬Control w.memory.bases cs.length) :
    Lockstep limit w (fun _ => Machine.storeParts index parts)
      (fun w' _ => w.memory.SameStack w'.memory) (fun _ A => w.memory.SameStack A) := by
  induction parts generalizing w index with
  | nil => exact of_pure ⟨rfl, rfl, rfl⟩
  | cons part rest ih =>
    refine of_valid fun valid => bind (newString part fun _ _ grown => grown.sameStack) ?_
    rintro w₁ string ⟨cls, -, made⟩
    have same₁ := made.sameStack
    have cells₁ : w₁.memory.cells = cs ++ [v] := same₁.cells.trans cells
    refine bind (peekTop cells₁ fun _ => same₁) ?_
    rintro w₂ array ⟨rfl, value⟩
    refine of_valid fun valid₁ => ?_
    have operand₁ : ¬Control w₂.memory.bases cs.length := same₁.bases.symm ▸ operand
    have new : w₂.memory.Plain (Harmless limit) (.object w.memory.next) := by
      rw [made.memory]
      exact valid.plain_next _
    refine bind (setField value (valid₁.plain_top cells₁ operand₁)
      (fun i => Placement.word?_object (made.place i)) new fun _ => same₁) ?_
    rintro w₃ stored outcome
    have same₂ : w₂.memory.SameStack w₃.memory := by
      rcases outcome with ⟨rfl, -⟩ | ⟨-, id, c, rfl⟩
      · exact ⟨rfl, rfl, rfl⟩
      · exact ⟨rfl, rfl, rfl⟩
    have same₃ := same₁.trans same₂
    exact mono (ih (index + 1) (same₂.cells.trans cells₁) (same₂.bases.symm ▸ operand₁))
      (fun _ _ same => same₃.trans same) (fun _ _ same => same₃.trans same)

theorem splitString [Nonempty ι] (operands : w.memory.HasWords 1) (failed : ∀ e A, fail e A) :
    Lockstep limit w (fun _ => Machine.splitString) (fun _ _ => True) fail := by
  refine bind (popString operands failed) ?_
  rintro w₁ - ⟨cs, v, xs, eq, rfl, rfl, -⟩
  refine of_valid fun valid => ?_
  refine bind (newArray _ (fun _ _ => failed _ _) fun _ _ => failed _ _) ?_
  rintro w₂ array ⟨cls, -, made⟩
  have value : ∀ i, (w₂.place i).word? (.object w.memory.next) = some (array i).word := fun i =>
    Placement.word?_object (made.place i)
  have plain : w₂.memory.Plain (Harmless limit) (.object w.memory.next) := by
    rw [made.memory]
    exact valid.plain_next _
  refine of_valid fun valid₂ => bind (withRooted value plain failed (storeParts _ 0 rfl ?_)) ?_
  · intro control
    exact Nat.lt_irrefl _ (valid₂.framed.control_lt control)
  · rintro w₃ a ⟨plain₃, value₃⟩
    exact mono (pushRef value₃ plain₃ fun e => failed e _) (fun _ _ _ => trivial) (fun _ _ h => h)

/-! ### Files -/

theorem popPath (operands : w.memory.HasWords 1) (failed : ∀ e A, fail e A) :
    Lockstep limit w (fun _ => Machine.popPath) (fun _ a => ∃ path, a = fun _ => path) fail := by
  refine bind (popString operands failed) ?_
  rintro w₁ - ⟨cs, v, xs, eq, rfl, rfl, -⟩
  exact of_pure ⟨_, rfl⟩

theorem openReader (operands : w.memory.HasWords 1) (failed : ∀ e A, fail e A) :
    Lockstep limit w (fun _ => Machine.openReader) (fun _ _ => True) fail := by
  refine bind (popPath operands failed) ?_
  rintro w₁ - ⟨path, rfl⟩
  refine get_bind ?_
  intro m holds
  simp only [holds.directory]
  refine bind (liftHost _ failed) ?_
  rintro w₂ - ⟨source, rfl, rfl⟩
  refine bind (insertFile _ failed) ?_
  rintro w₃ - ⟨handle, rfl, -⟩
  refine bind (note _) ?_
  rintro w₄ - rfl
  exact pushInteger handle failed

theorem openWriter (operands : w.memory.HasWords 1) (failed : ∀ e A, fail e A) :
    Lockstep limit w (fun _ => Machine.openWriter) (fun _ _ => True) fail := by
  refine bind (popPath operands failed) ?_
  rintro w₁ - ⟨path, rfl⟩
  refine get_bind ?_
  intro m holds
  simp only [holds.directory]
  refine bind (liftHost _ failed) ?_
  rintro w₂ - ⟨⟨place, directory⟩, rfl, rfl⟩
  refine bind (setDirectory directory failed) ?_
  rintro w₃ - -
  refine bind (insertFile _ failed) ?_
  rintro w₄ - ⟨handle, rfl, -⟩
  refine bind (note _) ?_
  rintro w₅ - rfl
  exact pushInteger handle failed

theorem closeReader (operands : w.memory.HasWords 1) (failed : ∀ e A, fail e A) :
    Lockstep limit w (fun _ => Machine.closeReader) (fun _ _ => True) fail := by
  refine bind (popInteger operands failed) ?_
  rintro w₁ - ⟨cs, v, handle, eq, rfl, rfl, -⟩
  refine bind (reader handle failed) ?_
  rintro w₂ - ⟨r, rfl, rfl⟩
  exact mono (setFile handle none failed) (fun _ _ _ => trivial) (fun _ _ h => h)

theorem withWriter (handle : Word) (act : Writer.Run Unit) (failed : ∀ e A, fail e A) :
    Lockstep limit w (fun _ => Machine.withWriter handle act) (fun _ _ => True) fail := by
  refine bind (writer handle failed) ?_
  rintro w₁ - ⟨out, rfl, rfl⟩
  refine get_bind ?_
  intro m holds
  simp only [holds.directory]
  refine bind (setDirectory _ failed) ?_
  rintro w₂ - -
  refine bind (setFile handle _ failed) ?_
  rintro w₃ - -
  exact mono (liftHost _ failed) (fun _ _ _ => trivial) (fun _ _ h => h)

theorem closeWriter (operands : w.memory.HasWords 1) (failed : ∀ e A, fail e A) :
    Lockstep limit w (fun _ => Machine.closeWriter) (fun _ _ => True) fail := by
  refine bind (popInteger operands failed) ?_
  rintro w₁ - ⟨cs, v, handle, eq, rfl, rfl, -⟩
  refine bind (withWriter handle _ failed) ?_
  rintro w₂ - -
  exact mono (setFile handle none failed) (fun _ _ _ => trivial) (fun _ _ h => h)

theorem readLine (operands : w.memory.HasWords 1) (failed : ∀ e A, fail e A) :
    Lockstep limit w (fun _ => Machine.readLine) (fun _ _ => True) fail := by
  refine bind (popInteger operands failed) ?_
  rintro w₁ - ⟨cs, v, handle, eq, rfl, rfl, -⟩
  refine bind (reader handle failed) ?_
  rintro w₂ - ⟨r, rfl, rfl⟩
  refine get_bind ?_
  intro m holds
  simp only [holds.directory]
  refine bind (setFile handle _ failed) ?_
  rintro w₃ - -
  refine bind (liftHost _ failed) ?_
  rintro w₄ - ⟨line, rfl, rfl⟩
  cases line with
  | some line => exact pushString line failed
  | none =>
    intro m holds
    exact mono (pushRef (v := .raw Ref.null.word) (r := fun _ => Ref.null) (fun _ => rfl)
      holds.harmless_null fun e => failed e _) (fun _ _ _ => trivial) (fun _ _ h => h) m holds

theorem writeLine (operands : w.memory.HasWords 1)
    (second : ∀ cs v xs, w.memory.cells = cs ++ [v] → w.memory.string? v = some xs →
      w.memory.HasWords 2) (failed : ∀ e A, fail e A) :
    Lockstep limit w (fun _ => Machine.writeLine) (fun _ _ => True) fail := by
  refine bind (popString operands failed) ?_
  rintro w₁ - ⟨cs, v, text, eq, rfl, rfl, found⟩
  refine bind (popInteger ((second cs v text eq found).pop eq) failed) ?_
  rintro w₂ - ⟨cs', v', handle, eq', rfl, rfl, -⟩
  exact withWriter handle _ failed

theorem stringAppend (operands : w.memory.HasWords 1)
    (second : ∀ cs v xs, w.memory.cells = cs ++ [v] → w.memory.string? v = some xs →
      w.memory.HasWords 2) (failed : ∀ e A, fail e A) :
    Lockstep limit w (fun _ => Machine.perform .stringAppend) (fun _ _ => True) fail := by
  refine bind (popString operands failed) ?_
  rintro w₁ - ⟨cs, v, first, eq, rfl, rfl, found⟩
  refine bind (popString ((second cs v first eq found).pop eq) failed) ?_
  rintro w₂ - ⟨cs', v', last, eq', rfl, rfl, -⟩
  exact pushString (first ++ last) failed

end Lockstep

end ObjectMachine
