/-
  ObjectMachine/Proofs/Lockstep.lean
  ==================================
  **Machines in lockstep** — the same operation on several machines that differ in where
  their objects lie.

  A `World` is one ideal memory, one host, and a placement for each of the machines.  An
  operation runs in *lockstep* from a world if, whatever machines the world describes, one
  of them runs out of memory, or all of them succeed and a world describes them again, or
  all of them fail with the same kind of error and a world describes them again.

  With two machines this is a simulation between heaps of different sizes, whose collections
  happen at different moments.  With one machine it says that the operation, however it
  ends, leaves a memory in which every reference has a meaning.
-/
import ObjectMachine.Machine.Interpreter
import ObjectMachine.Proofs.IdealValidity

namespace ObjectMachine

open IdealMemory ObjectGraph

/-! ### Kinds of errors -/

/-- The error without addresses and amounts, which depend on the heap. -/
def MemoryError.kind : MemoryError → MemoryError
  | .outOfMemory _ _ => .outOfMemory 0 0
  | .invalidObject _ => .invalidObject Ref.null
  | e => e

/-- The error without addresses and amounts, which depend on the heap. -/
def MachineError.kind : MachineError → MachineError
  | .memory cause => .memory cause.kind
  | .methodNotFound selector _ => .methodNotFound selector ""
  | .fieldOutOfBounds _ index => .fieldOutOfBounds Ref.null index
  | .typeMismatch expected _ => .typeMismatch expected Ref.null
  | e => e

/-! ### Worlds -/

/-- Everything of a machine that is not in its memory. -/
structure Host where
  known : KnownClasses
  services : ServiceTable
  output : Sink
  files : FileTable
  directory : Directory

def Machine.host (m : Machine) : Host := ⟨m.known, m.services, m.output, m.files, m.directory⟩

/-- Machines, apart from the bytes of their memories. -/
structure World (ι : Type) where
  memory : IdealMemory
  host : Host
  place : ι → Placement

/-- A word that is no address in a buffer of any of the machines. -/
def Harmless {ι : Type} (limit : ι → Nat) (w : Word) : Prop :=
  ∀ i, Stray addressGuard (limit i) ⟨w⟩

section Lockstep

variable {ι : Type} (limit : ι → Nat)

/-- The world describes the machines, whose buffers have the given sizes. -/
structure World.Holds (w : World ι) (m : ι → Machine) : Prop where
  shows_ : ∀ i, (m i).memory.Shows w.memory (w.place i)
  size : ∀ i, (m i).memory.space.bytes.size = limit i
  host : ∀ i, (m i).host = w.host
  valid : w.memory.Valid (Harmless limit)

/-- One of the machines has run out of memory, and its references still have a meaning. -/
def Exhausted {α : Type} (x : ι → Machine.Run α) (m : ι → Machine)
    (fail : MachineError → IdealMemory → Prop) : Prop :=
  ∃ (i : ι) (n available : Nat) (m' : Machine) (A : IdealMemory) (η : Placement),
    x i (m i) = .error (.memory (.outOfMemory n available)) m' ∧ m'.memory.Shows A η ∧
    m'.memory.space.bytes.size = limit i ∧ A.Valid (Harmless limit) ∧
    fail (.memory (.outOfMemory n available)) A

/-- All machines have succeeded. -/
def Succeeds {α : Type} (x : ι → Machine.Run α) (m : ι → Machine)
    (post : World ι → (ι → α) → Prop) : Prop :=
  ∃ (w : World ι) (a : ι → α) (m' : ι → Machine), (∀ i, x i (m i) = .ok (a i) (m' i)) ∧
    w.Holds limit m' ∧ post w a

/-- All machines have failed in the same way. -/
def Fails {α : Type} (x : ι → Machine.Run α) (m : ι → Machine)
    (fail : MachineError → IdealMemory → Prop) : Prop :=
  ∃ (w : World ι) (e : ι → MachineError) (m' : ι → Machine),
    (∀ i, x i (m i) = .error (e i) (m' i)) ∧ (∀ i j, (e i).kind = (e j).kind) ∧
      w.Holds limit m' ∧ ∀ i, fail (e i) w.memory

/-- **Lockstep.**  `post` holds of the world and the results after a success, `fail` of the
    errors and the ideal memory after a failure. -/
def Lockstep {α : Type} (w : World ι) (x : ι → Machine.Run α) (post : World ι → (ι → α) → Prop)
    (fail : MachineError → IdealMemory → Prop) : Prop :=
  ∀ m, w.Holds limit m →
    Exhausted limit x m fail ∨ Succeeds limit x m post ∨ Fails limit x m fail

variable {limit} {w : World ι} {α β : Type} {post : World ι → (ι → α) → Prop}
  {fail : MachineError → IdealMemory → Prop}

theorem World.Holds.stray {m : ι → Machine} (holds : w.Holds limit m) (i : ι) (x : Word)
    (h : Harmless limit x) : Stray addressGuard (m i).memory.space.bytes.size ⟨x⟩ :=
  (holds.size i).symm ▸ h i

theorem World.Holds.known {m : ι → Machine} (holds : w.Holds limit m) (i : ι) :
    (m i).known = w.host.known := congrArg Host.known (holds.host i)

theorem World.Holds.services {m : ι → Machine} (holds : w.Holds limit m) (i : ι) :
    (m i).services = w.host.services := congrArg Host.services (holds.host i)

theorem World.Holds.files {m : ι → Machine} (holds : w.Holds limit m) (i : ι) :
    (m i).files = w.host.files := congrArg Host.files (holds.host i)

theorem World.Holds.directory {m : ι → Machine} (holds : w.Holds limit m) (i : ι) :
    (m i).directory = w.host.directory := congrArg Host.directory (holds.host i)

theorem World.Holds.harmless_null {m : ι → Machine} (holds : w.Holds limit m) :
    Harmless limit Ref.null.word := by
  intro i
  have addressable := (holds.shows_ i).heap.sound.addressable
  have size := holds.size i
  have null : (⟨Ref.null.word⟩ : Ref).offset 0 = wordLimit - 1 := rfl
  unfold Stray
  omega

namespace Lockstep

/-! ### Rules -/

theorem mono {x : ι → Machine.Run α} {post' : World ι → (ι → α) → Prop}
    {fail' : MachineError → IdealMemory → Prop} (h : Lockstep limit w x post fail)
    (weaker : ∀ w a, post w a → post' w a) (weaker_fail : ∀ e A, fail e A → fail' e A) :
    Lockstep limit w x post' fail' := by
  intro m holds
  rcases h m holds with exhausted | succeeds | fails
  · obtain ⟨i, n, available, m', A, η, run, shows_, size, valid, failed⟩ := exhausted
    exact Or.inl ⟨i, n, available, m', A, η, run, shows_, size, valid, weaker_fail _ A failed⟩
  · obtain ⟨w', a, m', run, holds', posted⟩ := succeeds
    exact Or.inr (Or.inl ⟨w', a, m', run, holds', weaker w' a posted⟩)
  · obtain ⟨w', e, m', run, kinds, holds', failed⟩ := fails
    exact Or.inr (Or.inr ⟨w', e, m', run, kinds, holds', fun i => weaker_fail _ _ (failed i)⟩)

/-- What an operation does on the given machines is all that matters. -/
theorem congr_run {x y : ι → Machine.Run α} {m m₁ : ι → Machine}
    (same : ∀ i, x i (m i) = y i (m₁ i))
    (h : Exhausted limit y m₁ fail ∨ Succeeds limit y m₁ post ∨ Fails limit y m₁ fail) :
    Exhausted limit x m fail ∨ Succeeds limit x m post ∨ Fails limit x m fail := by
  rcases h with exhausted | succeeds | fails
  · obtain ⟨i, n, available, m', A, η, run, rest⟩ := exhausted
    exact Or.inl ⟨i, n, available, m', A, η, (same i).trans run, rest⟩
  · obtain ⟨w', a, m', run, rest⟩ := succeeds
    exact Or.inr (Or.inl ⟨w', a, m', fun i => (same i).trans (run i), rest⟩)
  · obtain ⟨w', e, m', run, rest⟩ := fails
    exact Or.inr (Or.inr ⟨w', e, m', fun i => (same i).trans (run i), rest⟩)

theorem of_pure {a : ι → α} (h : post w a) :
    Lockstep limit w (fun i => (Pure.pure (a i) : Machine.Run α)) post fail := by
  intro m holds
  exact Or.inr (Or.inl ⟨w, a, m, fun _ => rfl, holds, h⟩)

theorem of_throw {e : ι → MachineError} (kinds : ∀ i j, (e i).kind = (e j).kind)
    (h : ∀ i, fail (e i) w.memory) :
    Lockstep limit w (fun i => (MonadExcept.throw (e i) : Machine.Run α)) post fail := by
  intro m holds
  exact Or.inr (Or.inr ⟨w, e, m, fun _ => rfl, kinds, holds, h⟩)

/-- **Sequencing**, from given machines. -/
theorem bind_at {x : ι → Machine.Run α} {f : ι → α → Machine.Run β} {m : ι → Machine}
    {mid : World ι → (ι → α) → Prop} {post : World ι → (ι → β) → Prop}
    (h : Exhausted limit x m fail ∨ Succeeds limit x m mid ∨ Fails limit x m fail)
    (next : ∀ w' a, mid w' a → Lockstep limit w' (fun i => f i (a i)) post fail) :
    Exhausted limit (fun i => x i >>= f i) m fail ∨ Succeeds limit (fun i => x i >>= f i) m post ∨
      Fails limit (fun i => x i >>= f i) m fail := by
  rcases h with exhausted | succeeds | fails
  · obtain ⟨i, n, available, m', A, η, run, rest⟩ := exhausted
    exact Or.inl ⟨i, n, available, m', A, η, run_bind_error run, rest⟩
  · obtain ⟨w₁, a, m₁, run, holds₁, posted⟩ := succeeds
    have step : ∀ i, (x i >>= f i) (m i) = f i (a i) (m₁ i) := fun i => run_bind_ok (run i)
    exact congr_run step (next w₁ a posted m₁ holds₁)
  · obtain ⟨w₁, e, m₁, run, rest⟩ := fails
    exact Or.inr (Or.inr ⟨w₁, e, m₁, fun i => run_bind_error (run i), rest⟩)

/-- **Sequencing.** -/
theorem bind {x : ι → Machine.Run α} {f : ι → α → Machine.Run β} {mid : World ι → (ι → α) → Prop}
    {post : World ι → (ι → β) → Prop} (h : Lockstep limit w x mid fail)
    (next : ∀ w' a, mid w' a → Lockstep limit w' (fun i => f i (a i)) post fail) :
    Lockstep limit w (fun i => x i >>= f i) post fail :=
  fun m holds => bind_at (h m holds) next

/-- Looking at the machines. -/
theorem get_bind {f : ι → Machine → Machine.Run α}
    (h : ∀ m, w.Holds limit m → Lockstep limit w (fun i => f i (m i)) post fail) :
    Lockstep limit w (fun i => get >>= f i) post fail := fun m holds => h m holds m holds

/-! ### Operations on the memory -/

section Memory

theorem onMemory_ok {act : Memory.Run α} {m : Machine} {a : α} {mem : Memory}
    (h : act m.memory = .ok a mem) : Machine.onMemory act m = .ok a { m with memory := mem } := by
  cases m with
  | mk memory known services output files directory =>
    unfold Machine.onMemory
    dsimp only at h ⊢
    rw [h]

theorem onMemory_error {act : Memory.Run α} {m : Machine} {e : MemoryError} {mem : Memory}
    (h : act m.memory = .error e mem) :
    Machine.onMemory act m = .error (.memory e) { m with memory := mem } := by
  cases m with
  | mk memory known services output files directory =>
    unfold Machine.onMemory
    dsimp only at h ⊢
    rw [h]

theorem endState_onMemory (act : Memory.Run α) (m : Machine) :
    endState (Machine.onMemory act m) = { m with memory := endState (act m.memory) } := by
  cases run : act m.memory with
  | ok a mem => rw [onMemory_ok run]; rfl
  | error e mem => rw [onMemory_error run]; rfl

theorem onMemory_congr {act act' : Memory.Run α} {m : Machine} (h : act m.memory = act' m.memory) :
    Machine.onMemory act m = Machine.onMemory act' m := by
  cases m with
  | mk memory known services output files directory =>
    unfold Machine.onMemory
    dsimp only at h ⊢
    rw [h]

theorem onMemory_bind (act : Memory.Run α) (f : α → Memory.Run β) :
    Machine.onMemory (act >>= f) = Machine.onMemory act >>= fun a => Machine.onMemory (f a) := by
  funext m
  cases run : act m.memory with
  | ok a mem =>
    have rest : (act >>= f) m.memory = f a mem := run_bind_ok run
    rw [run_bind_ok (onMemory_ok run), @onMemory_congr β (act >>= f) (fun _ => f a mem) m rest]
    rfl
  | error e mem => rw [onMemory_error (run_bind_error run), run_bind_error (onMemory_error run)]

/-- An operation that succeeds on all machines, each taken by itself. -/
theorem each {x : ι → Machine.Run α} {A : IdealMemory} {P : ι → α → Prop}
    (valid : A.Valid (Harmless limit))
    (h : ∀ m, w.Holds limit m → ∀ i, ∃ a m', x i (m i) = .ok a m' ∧
      m'.memory.Shows A (w.place i) ∧
      m'.memory.space.bytes.size = (m i).memory.space.bytes.size ∧ m'.host = (m i).host ∧ P i a)
    (posted : ∀ a, (∀ i, P i (a i)) → post { w with memory := A } a) :
    Lockstep limit w x post fail := by
  intro m holds
  choose a m' run shows_ size host result using h m holds
  refine Or.inr (Or.inl ⟨{ w with memory := A }, a, m', run,
    ⟨shows_, fun i => (size i).trans (holds.size i), fun i => (host i).trans (holds.host i), valid⟩,
    posted a result⟩)

/-- An operation on the memory that succeeds on all machines. -/
theorem memory {act : ι → Memory.Run α} {A : IdealMemory} {P : ι → α → Prop}
    (valid : A.Valid (Harmless limit))
    (h : ∀ m, w.Holds limit m → ∀ i, ∃ a mem, act i (m i).memory = .ok a mem ∧
      mem.Shows A (w.place i) ∧ mem.space.bytes.size = (m i).memory.space.bytes.size ∧ P i a)
    (posted : ∀ a, (∀ i, P i (a i)) → post { w with memory := A } a) :
    Lockstep limit w (fun i => (act i : Machine.Run α)) post fail := by
  refine each valid ?_ posted
  intro m holds i
  obtain ⟨a, mem, run, shows_, size, result⟩ := h m holds i
  exact ⟨a, { m i with memory := mem }, onMemory_ok run, shows_, size, rfl, result⟩

/-- Reporting an event. -/
theorem note (event : ι → Event) :
    Lockstep limit w (fun i => (Memory.note (event i) : Machine.Run Unit)) (fun w' _ => w' = w)
      fail := by
  intro m holds
  refine memory (A := w.memory) (P := fun _ _ => True) holds.valid ?_ (fun _ _ => rfl) m holds
  intro m holds i
  exact ⟨(), _, rfl, { holds.shows_ i with }, rfl, trivial⟩

/-- An operation on the memory that fails on all machines and does nothing. -/
theorem memory_error {act : ι → Memory.Run α} {e : ι → MemoryError}
    (h : ∀ m, w.Holds limit m → ∀ i, act i (m i).memory = .error (e i) (m i).memory)
    (kinds : ∀ i j, (e i).kind = (e j).kind) (failed : ∀ i, fail (.memory (e i)) w.memory) :
    Lockstep limit w (fun i => (act i : Machine.Run α)) post fail := by
  intro m holds
  refine Or.inr (Or.inr ⟨w, fun i => .memory (e i), m, fun i => onMemory_error (h m holds i), ?_,
    holds, failed⟩)
  intro i j
  exact congrArg MachineError.memory (kinds i j)

end Memory

end Lockstep

end Lockstep

/-! ### Questions to the memory -/

/-- A question that all machines answer, or to which all object in the same way. -/
def Answers {ι α : Type} (limit : ι → Nat) (w : World ι) (f : ι → Memory → Except MachineError α)
    (post : (ι → α) → Prop) : Prop :=
  ∀ m, w.Holds limit m →
    (∃ a : ι → α, (∀ i, f i (m i).memory = .ok (a i)) ∧ post a) ∨
      ∃ e : ι → MachineError, (∀ i, f i (m i).memory = .error (e i)) ∧
        ∀ i j, (e i).kind = (e j).kind

namespace Answers

variable {ι α β : Type} {limit : ι → Nat} {w : World ι}

theorem ok {f : ι → Memory → Except MachineError α} {post : (ι → α) → Prop} {a : ι → α}
    (h : ∀ m, w.Holds limit m → ∀ i, f i (m i).memory = .ok (a i)) (posted : post a) :
    Answers limit w f post := fun m holds => Or.inl ⟨a, h m holds, posted⟩

theorem error {f : ι → Memory → Except MachineError α} {post : (ι → α) → Prop}
    {e : ι → MachineError} (h : ∀ m, w.Holds limit m → ∀ i, f i (m i).memory = .error (e i))
    (kinds : ∀ i j, (e i).kind = (e j).kind) : Answers limit w f post :=
  fun m holds => Or.inr ⟨e, h m holds, kinds⟩

theorem bind {f : ι → Memory → Except MachineError α} {g : ι → α → Memory → Except MachineError β}
    {mid : (ι → α) → Prop} {post : (ι → β) → Prop} (h : Answers limit w f mid)
    (next : ∀ a, mid a → Answers limit w (fun i => g i (a i)) post) :
    Answers limit w (fun i mem => f i mem >>= fun a => g i a mem) post := by
  intro m holds
  rcases h m holds with ⟨a, run, posted⟩ | ⟨e, run, kinds⟩
  · have step : ∀ i, (f i (m i).memory >>= fun a => g i a (m i).memory) =
        g i (a i) (m i).memory := by
      intro i
      rw [run i]
      rfl
    rcases next a posted m holds with ⟨b, run', posted'⟩ | ⟨e, run', kinds⟩
    · exact Or.inl ⟨b, fun i => (step i).trans (run' i), posted'⟩
    · exact Or.inr ⟨e, fun i => (step i).trans (run' i), kinds⟩
  · refine Or.inr ⟨e, ?_, kinds⟩
    intro i
    dsimp only
    rw [run i]
    rfl

end Answers

namespace Lockstep

variable {ι α : Type} {limit : ι → Nat} {w : World ι} {post : World ι → (ι → α) → Prop}
  {fail : MachineError → IdealMemory → Prop}

theorem query {f : ι → Memory → Except MachineError α} {mid : (ι → α) → Prop}
    (h : Answers limit w f mid) (posted : ∀ a, mid a → post w a) (failed : ∀ e, fail e w.memory) :
    Lockstep limit w (fun i => Machine.query (f i)) post fail := by
  intro m holds
  rcases h m holds with ⟨a, run, answered⟩ | ⟨e, run, kinds⟩
  · refine Or.inr (Or.inl ⟨w, a, m, ?_, holds, posted a answered⟩)
    intro i
    unfold Machine.query
    dsimp only
    rw [run i]
  · refine Or.inr (Or.inr ⟨w, e, m, ?_, kinds, holds, fun i => failed (e i)⟩)
    intro i
    unfold Machine.query
    dsimp only
    rw [run i]

/-- A question changes nothing. -/
theorem ask {f : ι → Memory → Except MachineError α} {mid : (ι → α) → Prop}
    (h : Answers limit w f mid) (failed : ∀ e, fail e w.memory) :
    Lockstep limit w (fun i => Machine.query (f i)) (fun w' a => w' = w ∧ mid a) fail :=
  query h (fun _ answered => ⟨rfl, answered⟩) failed

theorem liftMemory_eq_ok {x : Except MemoryError α} {a : α} (h : Machine.liftMemory x = .ok a) :
    x = .ok a := by
  cases x with
  | ok b =>
    cases h
    rfl
  | error cause => cases h

theorem liftMemory_eq_error {x : Except MemoryError α} {e : MachineError}
    (h : Machine.liftMemory x = .error e) : ∃ cause, x = .error cause ∧ e = .memory cause := by
  cases x with
  | ok b => cases h
  | error cause =>
    cases h
    exact ⟨cause, rfl, rfl⟩

/-- A question of the memory itself. -/
theorem memoryQuery {f : ι → Memory → Except MemoryError α} {mid : (ι → α) → Prop}
    (h : Answers limit w (fun i mem => Machine.liftMemory (f i mem)) mid)
    (posted : ∀ a, mid a → post w a) (failed : ∀ e, fail e w.memory) :
    Lockstep limit w (fun i => (Memory.query (f i) : Machine.Run α)) post fail := by
  intro m holds
  rcases h m holds with ⟨a, run, answered⟩ | ⟨e, run, kinds⟩
  · refine Or.inr (Or.inl ⟨w, a, m, ?_, holds, posted a answered⟩)
    intro i
    exact onMemory_ok (Memory.query_ok (liftMemory_eq_ok (run i)))
  · refine Or.inr (Or.inr ⟨w, e, m, ?_, kinds, holds, fun i => failed (e i)⟩)
    intro i
    obtain ⟨cause, found, eq⟩ := liftMemory_eq_error (run i)
    rw [eq]
    exact onMemory_error (Memory.query_error found)

end Lockstep

end ObjectMachine
