/-
  ObjectMachine/Proofs/NeutralRuns.lean
  =====================================
  **Runs leave the stack as they found it** — a run that ends with a return gives back the frame
  it has opened, and nothing but a result is left on the stack.

  A run may start while frames are open that it knows nothing of, and it may call, call again
  and collect.  What carries the proof is the list of the frames that it has opened above its
  own and has not dropped yet, together with the places where their callers go on.  Each
  instruction turns this list into that of the next one; a return without such a frame is
  the end of the run.
-/
import ObjectMachine.Proofs.LibraryMethods

namespace ObjectMachine

open Memory (Relocated Within)

namespace Machine

/-! ### Runs and their steps -/

/-- **Keeping to the frame.**  There is an operand above the bookkeeping for each pop, and an
    argument that is set lies above the bookkeeping of the caller's frame. -/
structure KeepsToFrame (m : Machine) (i : Instruction) : Prop where
  operands : m.memory.stack.HasWords (m.demand i)
  argument : ∀ index address, i = .storeArg index address →
    (FrameStack.Operation.setArg index ⟨address⟩).disciplined m.memory.stack = true

/-- The program keeps to its frames for a number of steps. -/
def StaysInFrames (entryBase : Word) : Nat → Machine → Prop
  | 0, _ => True
  | fuel + 1, m => (∀ i m', fetch m = .ok i m' → m.KeepsToFrame i) ∧
      ∀ m', advance entryBase m = .ok .next m' → StaysInFrames entryBase fuel m'

/-- The code at an address is run in a new frame, and keeps to its frames. -/
def RunsInFrames (fuel : Nat) (entry : CodeAddress) (locals : Word) (m : Machine) : Prop :=
  ∀ m', enter entry locals m = .ok () m' → StaysInFrames m'.memory.stack.bp fuel m'

/-- An instruction that has been carried out, between two machines. -/
structure Step where
  start : Machine
  instruction : Instruction
  /-- The address of the byte after the instruction. -/
  past : CodeAddress
  finish : Machine

/-- The steps of a run up to its end, or as far as it got. -/
def steps (entryBase : Word) : Nat → Machine → List Step
  | 0, _ => []
  | fuel + 1, m =>
    match fetch m with
    | .error _ _ => []
    | .ok i m₁ =>
      match advance entryBase m with
      | .ok .next m' => ⟨m, i, m₁.memory.pc, m'⟩ :: steps entryBase fuel m'
      | .ok .stop m' => [⟨m, i, m₁.memory.pc, m'⟩]
      | .error _ _ => []

theorem steps_next {entryBase : Word} {fuel : Nat} {i : Instruction} {m m₁ m' : Machine}
    (fetched : fetch m = .ok i m₁) (next : advance entryBase m = .ok .next m') :
    steps entryBase (fuel + 1) m = ⟨m, i, m₁.memory.pc, m'⟩ :: steps entryBase fuel m' := by
  rw [steps, fetched]
  dsimp only
  rw [next]

theorem steps_stop {entryBase : Word} {fuel : Nat} {i : Instruction} {m m₁ m' : Machine}
    (fetched : fetch m = .ok i m₁) (stop : advance entryBase m = .ok .stop m') :
    steps entryBase (fuel + 1) m = [⟨m, i, m₁.memory.pc, m'⟩] := by
  rw [steps, fetched]
  dsimp only
  rw [stop]

/-- The steps of a run that starts with a new frame. -/
def runSteps (fuel : Nat) (entry : CodeAddress) (locals : Word) (m : Machine) : List Step :=
  match enter entry locals m with
  | .ok _ m' => steps m'.memory.stack.bp fuel m'
  | .error _ _ => []

/-- A step sets an argument of the frame that the run was entered with, at a stack offset. -/
def Step.Sets (entryBase : Word) (p : Nat) (step : Step) : Prop :=
  ∃ index address, step.instruction = .storeArg index address ∧
    step.start.memory.stack.bp = entryBase ∧ step.start.memory.stack.argOffset index = .ok p

/-- **Matched returns.**  Each return goes on after the last call that has not returned yet, of
    which `opened` are to go on there; the one return for which there is none leaves the frame
    that the run was entered with, and is the last step. -/
def Returns (entryBase : Word) : (opened : List CodeAddress) → List Step → Prop
  | _, [] => False
  | opened, step :: rest =>
    match step.instruction, opened with
    | .halt, _ => False
    | .call _, opened => Returns entryBase (step.past :: opened) rest
    | .ret, [] | .retTop, [] => step.start.memory.stack.bp = entryBase ∧ rest = []
    | .ret, past :: opened | .retTop, past :: opened =>
      step.start.memory.stack.bp ≠ entryBase ∧ step.finish.memory.pc = past ∧
        Returns entryBase opened rest
    | _, opened => Returns entryBase opened rest

/-- The machines that a program's user gets to see: new ones, after changes that leave the stack
    alone, after collections and after runs, however these have ended. -/
inductive Used : Machine → Prop where
  | new {setup : Setup} {m : Machine} (made : Machine.new setup = .ok m) : Used m
  | host {m m' : Machine} (before : Used m) (same : m'.memory.stack = m.memory.stack) : Used m'
  | collect {m : Machine} {x : Memory} (before : Used m) (run : m.memory.collected = .ok x) :
      Used { m with memory := x }
  | run {m : Machine} {fuel : Nat} {entry : CodeAddress} {locals : Word} (before : Used m)
      (disciplined : m.RunsInFrames fuel entry locals) : Used (endState (run fuel entry locals m))

/-! ### One step of a run -/

/-- The frames return to these addresses, in the same order. -/
def ReturnTo (b : Bytes) (frames : List Nat) (addresses : List CodeAddress) : Prop :=
  List.Forall₂ (fun base past => b.word? (base + 4) = some past.word) frames addresses

theorem ReturnTo.congr {b b' : Bytes} {frames : List Nat} {addresses : List CodeAddress}
    (h : ReturnTo b frames addresses)
    (same : ∀ base ∈ frames, b'.word? (base + 4) = b.word? (base + 4)) :
    ReturnTo b' frames addresses := by
  unfold ReturnTo at h
  induction h with
  | nil => exact .nil
  | cons here _ ih =>
    refine .cons ((same _ List.mem_cons_self).trans here) (ih ?_)
    exact fun base mem => same base (List.mem_cons_of_mem _ mem)

/-- **Running.**  Above the frame that a run was entered with, frames are open whose callers go
    on at known addresses. -/
structure Running (entryBase : Word) (outer : List Nat) (m : Machine) (inner : List Nat)
    (opened : List CodeAddress) : Prop where
  nested : m.memory.stack.Nested (inner ++ entryBase.toNat :: outer)
  returns : ReturnTo m.memory.stack.bytes inner opened

/-- What an instruction that is not the last one of a run does to the calls that are open. -/
def Turns (i : Instruction) (past : CodeAddress) (m' : Machine) (opened opened' : List CodeAddress) :
    Prop :=
  match i with
  | .halt => False
  | .call _ => opened' = past :: opened
  | .ret | .retTop => opened = m'.memory.pc :: opened'
  | _ => opened' = opened

section Running

variable {entryBase : Word} {outer inner : List Nat} {opened : List CodeAddress} {m m₁ m' : Machine}
  {i : Instruction}

/-- The innermost frame is that of the run, or lies above it. -/
theorem Running.innermost (running : Running entryBase outer m inner opened) :
    ∃ base rest, inner ++ entryBase.toNat :: outer = base :: rest ∧ entryBase.toNat ≤ base ∧
      ((inner = [] ∧ m.memory.stack.bp = entryBase ∧ base = entryBase.toNat ∧ rest = outer) ∨
        ∃ inner', inner = base :: inner' ∧ m.memory.stack.bp ≠ entryBase ∧
          rest = inner' ++ entryBase.toNat :: outer) := by
  rcases running.nested.depth with ⟨rfl, here⟩ | ⟨some_, above⟩
  · exact ⟨_, _, rfl, Nat.le_refl _, Or.inl ⟨rfl, UInt32.toNat_inj.1 here, rfl, rfl⟩⟩
  · cases inner with
    | nil => exact absurd rfl some_
    | cons base inner' =>
      have bp : m.memory.stack.bp.toNat = base := (Memory.base_eq running.nested).2
      refine ⟨base, _, rfl, by omega, Or.inr ⟨inner', rfl, ?_, rfl⟩⟩
      intro same
      rw [same] at above
      omega

/-- **Fetched.**  A machine is about to carry out an instruction, after which `past` comes, and
    has not touched its stack since it had the state `m`. -/
structure Fetched (m : Machine) (i : Instruction) (past : CodeAddress) (q : Machine) : Prop where
  stack : q.memory.stack = m.memory.stack
  pc : q.memory.pc = past
  demand : q.demand i = m.demand i
  relocated : ∀ p, Relocated p m.memory q.memory

theorem fetched_of_fetch (fetch : fetch m = .ok i m₁) (event : Event) :
    Fetched m i m₁.memory.pc (m₁.noted event) := by
  have moved : ∀ p, Relocated p m.memory (m.memory.after (.setPc m₁.memory.pc)) := fun _ =>
    Relocated.refl.operation _ rfl
  rw [fetch_eq_ok fetch]
  exact ⟨rfl, rfl, rfl, fun p => (moved p).note event⟩

theorem Fetched.returned {base : Nat} {rest : List Nat} {past : CodeAddress} {q : Machine} {x : Memory}
    (fetched : Fetched m i past q) (returned : Returned base rest i q.memory x) :
    Returned base rest i m.memory x where
  nested := returned.nested
  top := by
    have same : q.memory.peekRef 0 = m.memory.peekRef 0 := by
      unfold Memory.peekRef
      rw [fetched.stack]
    rw [← same]
    exact returned.top
  returns b mem := by rw [returned.returns b mem, fetched.stack]
  below p aligned low := (fetched.relocated p).trans (returned.below p aligned low)

/-- **One step** fails, ends the run, or leads to the next one. -/
def StepEnd (entryBase : Word) (outer : List Nat) (opened : List CodeAddress) (m : Machine)
    (i : Instruction) (past : CodeAddress) : EStateM.Result MachineError Machine Flow → Prop
  | .error _ m' => ∃ bases, m'.memory.stack.Nested bases
  | .ok .stop m' => (∃ bases, m'.memory.stack.Nested bases) ∧
      (i = .halt ∨ (i = .ret ∨ i = .retTop) ∧ opened = [] ∧ m.memory.stack.bp = entryBase ∧
        Returned entryBase.toNat outer i m.memory m'.memory)
  | .ok .next m' => ((i = .ret ∨ i = .retTop) → m.memory.stack.bp ≠ entryBase) ∧
      ∃ inner' opened', Running entryBase outer m' inner' opened' ∧
        Turns i past m' opened opened' ∧
        ∀ p, p % 4 = 0 → p + 4 ≤ entryBase.toNat → ¬Step.Sets entryBase p ⟨m, i, past, m'⟩ →
          Relocated p m.memory m'.memory

section Cases

variable {q : Machine} {past : CodeAddress} (running : Running entryBase outer m inner opened)
  (fetched : Fetched m i past q) (keeps : m.KeepsToFrame i)
include running fetched keeps

/-- The stack as the instruction finds it. -/
theorem ready_of_fetched : ∃ base rest, inner ++ entryBase.toNat :: outer = base :: rest ∧
    entryBase.toNat ≤ base ∧ q.memory.stack.Nested (base :: rest) ∧
      q.memory.stack.HasWords (q.demand i) := by
  obtain ⟨base, rest, split, low, -⟩ := running.innermost
  refine ⟨base, rest, split, low, ?_, ?_⟩
  · rw [fetched.stack, ← split]
    exact running.nested
  · rw [fetched.stack, fetched.demand]
    exact keeps.operands

theorem stepEnd_plain (plain : i.isPlain = true) :
    StepEnd entryBase outer opened m i past (step entryBase i q) := by
  obtain ⟨base, rest, split, low, nested, words⟩ := ready_of_fetched running fetched keeps
  have calm := calmEnd_step entryBase plain nested words
  have next := step_gives_next entryBase plain q
  cases run : step entryBase i q with
  | error e m' =>
    rw [run] at calm
    exact ⟨_, calm.1.nested⟩
  | ok flow m' =>
    rw [run] at calm
    obtain rfl : flow = .next := next flow m' run
    have within := calm.1
    refine ⟨?_, inner, opened, ⟨split ▸ within.nested, running.returns.congr ?_⟩, ?_, ?_⟩
    · rintro (rfl | rfl) <;> cases plain
    · intro b mem
      have mem : b ∈ base :: rest := split ▸ List.mem_append_left _ mem
      rw [within.returns b mem, fetched.stack]
    · cases i <;> first | rfl | cases plain
    · intro p aligned below _
      exact (fetched.relocated p).trans (within.below p aligned (by omega))

theorem stepEnd_call {selector : Word} (call : i = .call selector) :
    StepEnd entryBase outer opened m i past (step entryBase i q) := by
  subst call
  obtain ⟨base, rest, split, low, nested, words⟩ := ready_of_fetched running fetched keeps
  have called := step_call entryBase selector nested words
  cases run : step entryBase (.call selector) q with
  | error e m' =>
    rw [run] at called
    exact ⟨_, Within.nested called⟩
  | ok flow m' =>
    rw [run] at called
    obtain ⟨rfl, m₂, within, pc, entered⟩ := called
    have split' : m₂.memory.stack.sp :: base :: rest =
        (m₂.memory.stack.sp :: inner) ++ entryBase.toNat :: outer := by
      rw [← split]
      rfl
    refine ⟨nofun, m₂.memory.stack.sp :: inner, past :: opened, ⟨split' ▸ entered.nested, ?_⟩, rfl, ?_⟩
    · refine .cons ?_ (running.returns.congr fun b mem => ?_)
      · rw [entered.returning, pc, fetched.pc]
      · have mem : b ∈ base :: rest := split ▸ List.mem_append_left _ mem
        rw [entered.returns b mem, within.returns b mem, fetched.stack]
    · intro p aligned below _
      have top := within.nested.below base List.mem_cons_self
      exact ((fetched.relocated p).trans (within.below p aligned (by omega))).trans
        (entered.below p (by omega))

theorem stepEnd_return (returns : i = .ret ∨ i = .retTop) :
    StepEnd entryBase outer opened m i past (step entryBase i q) := by
  obtain ⟨base, rest, split, low, nested, words⟩ := ready_of_fetched running fetched keeps
  obtain ⟨_, _, split', -, depth⟩ := running.innermost
  cases split.symm.trans split'
  obtain ⟨flow, m', run, returned, resumes⟩ := step_return entryBase returns nested words
  rw [run]
  unfold Resumes at resumes
  rw [fetched.stack] at resumes
  rcases depth with ⟨rfl, own, rfl, rfl⟩ | ⟨inner', rfl, other, rfl⟩
  · rw [if_pos (Or.inr own)] at resumes
    subst resumes
    have none : opened = [] := by
      cases running.returns
      rfl
    exact ⟨⟨_, returned.nested⟩, Or.inr ⟨returns, none, own, fetched.returned returned⟩⟩
  · have more : ¬(inner' ++ entryBase.toNat :: outer = [] ∨ m.memory.stack.bp = entryBase) := by
      rintro (empty | own)
      · exact absurd empty (by simp)
      · exact other own
    rw [if_neg more] at resumes
    obtain ⟨rfl, resumed⟩ := resumes
    refine ⟨fun _ => other, inner', ?_⟩
    cases running.returns with
    | @cons _ address _ opened' here others =>
      have goesOn : address = m'.memory.pc := by
        have words := Option.some.inj (here.symm.trans resumed)
        exact congrArg CodeAddress.mk words
      refine ⟨opened', ⟨returned.nested, ReturnTo.congr others fun b mem => ?_⟩, ?_, ?_⟩
      · rw [returned.returns b (List.mem_append_left _ mem), fetched.stack]
      · subst goesOn
        rcases returns with rfl | rfl <;> rfl
      · intro p aligned below _
        exact (fetched.relocated p).trans (returned.below p aligned (by omega))

theorem stepEnd_storeArg {index address : Word} (set : i = .storeArg index address) :
    StepEnd entryBase outer opened m i past (step entryBase i q) := by
  subst set
  obtain ⟨base, rest, split, low, depth⟩ := running.innermost
  have nested : m.memory.stack.Nested (base :: rest) := split ▸ running.nested
  have careful := keeps.argument index address rfl
  obtain ⟨next, nested', returns, below⟩ := step_storeArg entryBase index address (m := q)
    (fetched.stack ▸ nested) (fetched.stack ▸ careful)
  cases run : step entryBase (.storeArg index address) q with
  | error e m' =>
    rw [run] at nested'
    exact ⟨_, nested'⟩
  | ok flow m' =>
    rw [run] at nested' returns below
    obtain rfl : flow = .next := next q flow m' run
    refine ⟨nofun, inner, opened, ⟨split ▸ nested', running.returns.congr ?_⟩, rfl, ?_⟩
    · intro b mem
      have mem : b ∈ base :: rest := split ▸ List.mem_append_left _ mem
      rw [← fetched.stack]
      exact returns b mem
    · intro p aligned fits unset
      refine (fetched.relocated p).trans (below p aligned (by omega) fun slot => ?_)
      rw [fetched.stack] at slot
      rcases depth with ⟨-, own, -, -⟩ | ⟨inner', rfl, other, rfl⟩
      · exact unset ⟨index, address, rfl, own, slot⟩
      · -- a frame further in reaches no lower than the bookkeeping of its caller
        have mem : entryBase.toNat ∈ base :: (inner' ++ entryBase.toNat :: outer) := by simp
        have := nested.argument_above careful slot entryBase.toNat mem fun same =>
          other (UInt32.toNat_inj.1 same).symm
        omega

theorem stepEnd_step : StepEnd entryBase outer opened m i past (step entryBase i q) := by
  cases i with
  | halt => exact ⟨⟨_, fetched.stack ▸ running.nested⟩, Or.inl rfl⟩
  | call selector => exact stepEnd_call running fetched keeps rfl
  | ret => exact stepEnd_return running fetched keeps (Or.inl rfl)
  | retTop => exact stepEnd_return running fetched keeps (Or.inr rfl)
  | storeArg index address => exact stepEnd_storeArg running fetched keeps rfl
  | _ => exact stepEnd_plain running fetched keeps rfl

end Cases

/-- **Going on** from one instruction to the next. -/
theorem advance_cases (running : Running entryBase outer m inner opened)
    (keeps : ∀ i m', fetch m = .ok i m' → m.KeepsToFrame i) :
    (∃ e m₁, fetch m = .error e m₁ ∧ advance entryBase m = .error e m₁ ∧
      m₁.memory.stack = m.memory.stack) ∨
      ∃ i m₁, fetch m = .ok i m₁ ∧
        StepEnd entryBase outer opened m i m₁.memory.pc (advance entryBase m) := by
  cases fetched : fetch m with
  | error e m₁ =>
    obtain ⟨pc, ends⟩ := withPc_fetch m
    rw [fetched] at ends
    have ends : m₁ = m.withPc pc := ends
    refine Or.inl ⟨e, m₁, rfl, (run_get_bind _).trans (run_bind_error fetched), ?_⟩
    rw [ends]
    rfl
  | ok i m₁ =>
    refine Or.inr ⟨i, m₁, rfl, ?_⟩
    rw [advance_of_fetch fetched]
    exact stepEnd_step running (fetched_of_fetch fetched _) (keeps i m₁ fetched)

/-! ### Whole runs -/

/-- **Given back.**  The frame that a run was entered with has been dropped by the last step. -/
structure GivenBack (entryBase : Word) (outer : List Nat) (opened : List CodeAddress) (m : Machine)
    (trace : List Step) (m' : Machine) : Prop where
  nested : m'.memory.stack.Nested outer
  top : ∃ init last, trace = init ++ [last] ∧
    (last.instruction = .ret ∧ m'.memory.stack.sp = entryBase.toNat ∨
      last.instruction = .retTop ∧ m'.memory.stack.sp = entryBase.toNat + 4 ∧
        ∃ value, last.start.memory.peekRef 0 = .ok value ∧
          m'.memory.stack.bytes.word? entryBase.toNat = some value.word)
  returns : Returns entryBase opened trace
  below : ∀ p, p % 4 = 0 → p + 4 ≤ entryBase.toNat → (∀ step ∈ trace, ¬step.Sets entryBase p) →
    Relocated p m.memory m'.memory

/-- A step in front of a run. -/
theorem GivenBack.cons {opened' : List CodeAddress} {past : CodeAddress} {trace : List Step}
    {m₁ : Machine}
    (h : GivenBack entryBase outer opened' m₁ trace m') (turns : Turns i past m₁ opened opened')
    (inside : (i = .ret ∨ i = .retTop) → m.memory.stack.bp ≠ entryBase)
    (below : ∀ p, p % 4 = 0 → p + 4 ≤ entryBase.toNat → ¬Step.Sets entryBase p ⟨m, i, past, m₁⟩ →
      Relocated p m.memory m₁.memory) :
    GivenBack entryBase outer opened m (⟨m, i, past, m₁⟩ :: trace) m' where
  nested := h.nested
  top := by
    obtain ⟨init, last, rfl, top⟩ := h.top
    exact ⟨⟨m, i, past, m₁⟩ :: init, last, rfl, top⟩
  returns := by
    have returns := h.returns
    cases i with
    | halt => exact turns.elim
    | call selector =>
      cases (show opened' = past :: opened from turns)
      exact returns
    | ret =>
      cases (show opened = m₁.memory.pc :: opened' from turns)
      exact ⟨inside (Or.inl rfl), rfl, returns⟩
    | retTop =>
      cases (show opened = m₁.memory.pc :: opened' from turns)
      exact ⟨inside (Or.inr rfl), rfl, returns⟩
    | _ =>
      cases (show opened' = opened from turns)
      exact returns
  below p aligned low unset :=
    (below p aligned low (unset _ List.mem_cons_self)).trans
      (h.below p aligned low fun step mem => unset step (List.mem_cons_of_mem _ mem))

/-- The last step of a run. -/
theorem givenBack_last {past : CodeAddress} (returns : i = .ret ∨ i = .retTop)
    (own : m.memory.stack.bp = entryBase)
    (returned : Returned entryBase.toNat outer i m.memory m₁.memory) (event : Event) :
    GivenBack entryBase outer [] m [⟨m, i, past, m₁⟩] (m₁.noted event) where
  nested := returned.nested
  top := ⟨[], _, rfl, returned.top⟩
  returns := by rcases returns with rfl | rfl <;> exact ⟨own, rfl⟩
  below p aligned low _ := (returned.below p aligned low).note event

/-- **Runs**, however they end, leave frames that are nested, and a run that ends with a return has
    given back the frame that it was entered with. -/
theorem runFrom_givesBack {fuel : Nat} (n : Nat) (running : Running entryBase outer m inner opened)
    (stays : StaysInFrames entryBase fuel m) :
    (∃ bases, (endState (runFrom entryBase fuel n m)).memory.stack.Nested bases) ∧
      ∀ m', runFrom entryBase fuel n m = .ok .finished m' →
        (∃ last ∈ (steps entryBase fuel m).getLast?, last.instruction = .halt) ∨
          GivenBack entryBase outer opened m (steps entryBase fuel m) m' := by
  -- the calls that are open change from step to step, so they are general in the induction
  induction fuel generalizing m inner opened n with
  | zero =>
    have run : runFrom entryBase 0 n m = .ok .unfinished m := rfl
    rw [run]
    exact ⟨⟨_, running.nested⟩, fun m' ended => by cases ended⟩
  | succ fuel ih =>
    obtain ⟨keeps, goesOn⟩ := stays
    rcases advance_cases running keeps with ⟨e, m₁, fetched, failed, same⟩ | ⟨i, m₁, fetched, ends⟩
    · have run : runFrom entryBase (fuel + 1) n m = .error e m₁ := run_bind_error failed
      rw [run]
      exact ⟨⟨_, same ▸ running.nested⟩, fun m' ended => by cases ended⟩
    cases advanced : advance entryBase m with
    | error e m₂ =>
      have run : runFrom entryBase (fuel + 1) n m = .error e m₂ := run_bind_error advanced
      rw [advanced] at ends
      rw [run]
      exact ⟨ends, fun m' ended => by cases ended⟩
    | ok flow m₂ =>
      rw [advanced] at ends
      cases flow with
      | stop =>
        have trace : steps entryBase (fuel + 1) m = _ := steps_stop fetched advanced
        have run : runFrom entryBase (fuel + 1) n m =
            .ok .finished (m₂.noted (.stopped (n + 1))) := run_bind_ok advanced
        rw [run, trace]
        refine ⟨ends.1, fun m' finished => ?_⟩
        cases finished
        rcases ends.2 with rfl | ⟨returns, rfl, own, returned⟩
        · exact Or.inl ⟨_, rfl, rfl⟩
        · exact Or.inr (givenBack_last returns own returned _)
      | next =>
        have trace : steps entryBase (fuel + 1) m = _ := steps_next fetched advanced
        have run : runFrom entryBase (fuel + 1) n m = runFrom entryBase fuel (n + 1) m₂ :=
          run_bind_ok advanced
        obtain ⟨inside, inner', opened', running', turns, below⟩ := ends
        obtain ⟨nested, finished⟩ := ih (n + 1) running' (goesOn m₂ advanced)
        rw [run, trace]
        refine ⟨nested, fun m' ended => ?_⟩
        rcases finished m' ended with ⟨last, mem, halts⟩ | given
        · left
          refine ⟨last, ?_, halts⟩
          rw [List.getLast?_cons]
          rw [Option.mem_def] at mem
          rw [mem]
          rfl
        · exact Or.inr (given.cons turns inside below)

end Running

/-! ### Used machines -/

section Used

variable {m m' : Machine} {fuel : Nat} {entry : CodeAddress} {locals : Word}

/-- The frame that a run is entered with. -/
theorem Entered.running {bases : List Nat} (entered : Entered bases m m')
    (bounded : m.memory.stack.Bounded) : Running m'.memory.stack.bp bases m' [] [] := by
  refine ⟨?_, .nil⟩
  rw [entered.bp, bounded.toNat_sp]
  exact entered.nested

/-- Whatever has happened to a machine, its frames are nested. -/
theorem Used.nested (used : Used m) : ∃ bases, m.memory.stack.Nested bases := by
  induction used with
  | new made => exact ⟨[], nested_of_new made⟩
  | host _ same ih =>
    obtain ⟨bases, nested⟩ := ih
    exact ⟨bases, same ▸ nested⟩
  | collect _ run ih =>
    obtain ⟨bases, nested⟩ := ih
    exact ⟨bases, (Memory.nested_of_collected nested run).1⟩
  | @run m fuel entry locals _ disciplined ih =>
    obtain ⟨bases, nested⟩ := ih
    rcases enter_cases nested entry locals with ⟨e, full⟩ | ⟨m₁, opened, entered⟩
    · rw [run_eq_error full]
      exact ⟨bases, nested⟩
    · rw [run_eq_ok opened]
      exact (runFrom_givesBack 0 (entered.running nested.bounded) (disciplined m₁ opened)).1

/-- **Runs are stack-neutral.**  Take a machine that has been used in any way, frames being open
    or not, and a run that keeps to its frames and ends with a return.  The base pointer is what it
    was before the run, and so is the top of the stack, but for the result of `return-top`.
    Only collections have changed the words below, apart from arguments that the frame of the run
    has set itself.  Each return went on after the last call that had not returned, and
    the one without such a call was the end. -/
theorem run_is_stack_neutral {last : Step} (used : Used m)
    (disciplined : m.RunsInFrames fuel entry locals)
    (finished : run fuel entry locals m = .ok .finished m')
    (ends : (runSteps fuel entry locals m).getLast? = some last)
    (returns : last.instruction = .ret ∨ last.instruction = .retTop) :
    m'.memory.stack.bp = m.memory.stack.bp ∧
      (last.instruction = .ret → m'.memory.stack.sp = m.memory.stack.sp) ∧
      (last.instruction = .retTop → m'.memory.stack.sp = m.memory.stack.sp + 4 ∧
        ∃ value, last.start.memory.peekRef 0 = .ok value ∧
          m'.memory.stack.bytes.word? m.memory.stack.sp = some value.word) ∧
      (∀ p, p % 4 = 0 → p + 4 ≤ m.memory.stack.sp →
        (∀ step ∈ runSteps fuel entry locals m, ¬step.Sets (UInt32.ofNat m.memory.stack.sp) p) →
          Relocated p m.memory m'.memory) ∧
      Returns (UInt32.ofNat m.memory.stack.sp) [] (runSteps fuel entry locals m) := by
  obtain ⟨bases, nested⟩ := used.nested
  rcases enter_cases nested entry locals with ⟨e, full⟩ | ⟨m₁, opened, entered⟩
  · cases (run_eq_error full).symm.trans finished
  have trace : runSteps fuel entry locals m = steps m₁.memory.stack.bp fuel m₁ := by
    unfold runSteps
    rw [opened]
  rw [run_eq_ok opened] at finished
  rw [trace] at ends ⊢
  have base : m₁.memory.stack.bp.toNat = m.memory.stack.sp := by
    rw [entered.bp, nested.bounded.toNat_sp]
  rw [← entered.bp]
  rcases (runFrom_givesBack 0 (entered.running nested.bounded) (disciplined m₁ opened)).2 m' finished
    with ⟨step, mem, halts⟩ | given
  · obtain rfl : step = last := Option.some.inj (mem.symm.trans ends)
    rcases returns with h | h <;> cases halts.symm.trans h
  obtain ⟨init, step, split, top⟩ := given.top
  obtain rfl : step = last := by
    rw [split, List.getLast?_append_of_ne_nil _ (List.cons_ne_nil _ _)] at ends
    exact Option.some.inj ends
  rw [base] at top
  refine ⟨bp_eq_of_nested given.nested nested, fun left => ?_, fun left => ?_, ?_, given.returns⟩
  · rcases top with ⟨-, sp⟩ | ⟨other, -⟩
    · exact sp
    · cases other.symm.trans left
  · rcases top with ⟨other, -⟩ | ⟨-, result⟩
    · cases other.symm.trans left
    · exact result
  · intro p aligned low unset
    exact (entered.below p low).trans (given.below p aligned (by omega) unset)

/-- Carrying out `return-top` in the frame of a run. -/
theorem advance_retTop {entryBase : Word} {m₁ : Machine}
    (nested : m.memory.stack.Nested [entryBase.toNat]) (words : m.memory.stack.HasWords 1) (fetched : fetch m = .ok .retTop m₁) :
    ∃ m', advance entryBase m = .ok .stop m' := by
  have idle := fetched_of_fetch fetched (.executed m.memory.pc .retTop)
  obtain ⟨flow, m', run, -, resumes⟩ := step_return entryBase (Or.inr rfl)
    (idle.stack.symm ▸ nested) (idle.stack.symm ▸ words)
  unfold Resumes at resumes
  rw [if_pos (Or.inl rfl)] at resumes
  rw [advance_of_fetch fetched, run, resumes]
  exact ⟨m', rfl⟩

end Used

/-! ### A run with a call -/

section Call

variable {entryBase : Word} {fuel : Nat} {i : Instruction} {m m₁ m' : Machine}

theorem StaysInFrames.next (fetched : fetch m = .ok i m₁) (keeps : m.KeepsToFrame i)
    (next : advance entryBase m = .ok .next m') (rest : StaysInFrames entryBase fuel m') :
    StaysInFrames entryBase (fuel + 1) m := by
  constructor
  · intro j x found
    cases fetched.symm.trans found
    exact keeps
  · intro x other
    cases next.symm.trans other
    exact rest

theorem StaysInFrames.stop (fetched : fetch m = .ok i m₁) (keeps : m.KeepsToFrame i)
    (stop : advance entryBase m = .ok .stop m') : StaysInFrames entryBase (fuel + 1) m := by
  constructor
  · intro j x found
    cases fetched.symm.trans found
    exact keeps
  · intro x next
    cases stop.symm.trans next

/-- The method of Object does nothing but return. -/
theorem object_answers : Inventory.library.Answers 1 "getObjectID" [.ret] := by decide +kernel

/-- Pushes an object, asks it who it is, and returns the answer. -/
def callCode (r : Ref) (k : Word) : List Instruction := [.pushRef r.word, .call k, .retTop]

/-- **The run**: it calls, the method returns, and the run ends with the object on top. -/
theorem callCode_runs {p : Machine} {r c : Ref} {k : Word} {entry : CodeAddress} (library : p.HasLibrary)
    (nested : p.memory.stack.Nested []) (sp : p.memory.stack.sp = 0)
    (size : p.memory.stack.bytes.size = 64) (constant : textConstant p.memory k = .ok "getObjectID")
    (stored : p.memory.code.bytes.toList.drop entry.word.toNat = Instruction.encodeAll (callCode r k))
    (object : p.memory.classRef ⟨1⟩ = .ok c) (instance_ : receiverClass p.memory r = .ok c) :
    ∃ m' last, p.RunsInFrames 4 entry 0 ∧ run 4 entry 0 p = .ok .finished m' ∧
      (runSteps 4 entry 0 p).map Step.instruction = [.pushRef r.word, .call k, .ret, .retTop] ∧
      (runSteps 4 entry 0 p).getLast? = some last ∧ last.instruction = .retTop ∧
      last.start.memory.peekRef 0 = .ok r := by
  have frame : p.memory.stack.sp + 8 ≤ p.memory.stack.bytes.size := by omega
  let q : Machine := { p with memory := { p.memory with
    stack := p.memory.stack.opened p.memory.pc, pc := entry } }
  have entered : enter entry 0 p = .ok () q := enter_eq entry frame
  have opened : p.InCall p.memory.pc [] (callCode r k) q :=
    ⟨FrameStack.inCall_opened frame, ⟨_, _, rfl⟩, [], stored.trans (List.append_nil _).symm⟩
  have nested₀ : q.memory.stack.Nested [0] := sp ▸ opened.stack.nested nested
  have sp₀ : q.memory.stack.sp = 8 := congrArg (· + 8) sp
  -- the object is pushed
  obtain ⟨q₁, q₂, fetched, advanced, inCall₂⟩ := opened.advance_eq library.small q.memory.stack.bp
  obtain ⟨q₃, pushed, inCall₃⟩ := inCall₂.pushRef_ok (by rw [List.length_nil]; omega) r
  have advanced : advance q.memory.stack.bp q = .ok .next q₃ := advanced.trans (run_bind_ok pushed)
  have nested₃ : q₃.memory.stack.Nested [0] := sp ▸ inCall₃.stack.nested nested
  have sp₃ : q₃.memory.stack.sp = 12 := by rw [inCall₃.stack.sp, sp]; rfl
  have size₃ : q₃.memory.stack.bytes.size = 64 := inCall₃.stack.size.trans size
  have word₃ : q₃.memory.stack.bytes.word? 8 = some r.word := by
    have word := inCall₃.stack.words 0 r.word rfl
    rwa [sp] at word
  -- the method is called
  obtain ⟨pc₃, journal₃, same₃⟩ := inCall₃.same
  have small₃ : q₃.memory.code.bytes.size < wordLimit := by
    rw [same₃]
    exact library.small
  obtain ⟨more, unread₃⟩ := inCall₃.unread
  obtain ⟨pc₄, fetched₃, unread₄⟩ := fetch_eq small₃ (unread₃.trans (List.append_assoc _ _ _))
  have found : ∃ method, lookup q₃.memory r "getObjectID" = .ok method ∧ method.locals = 0 ∧
      ∃ more, q₃.memory.code.bytes.toList.drop method.entry.word.toNat =
        Instruction.encodeAll [.ret] ++ more := by
    obtain ⟨method, answers, rest⟩ := library.finds object_answers object instance_
    rw [same₃]
    exact ⟨method, (lookup_with p.memory _ _ _ r _).trans answers, rest⟩
  obtain ⟨method, answers, locals, body⟩ := found
  have constant₃ : textConstant q₃.memory k = .ok "getObjectID" := by
    rw [same₃]
    exact constant
  have top₃ : q₃.memory.peekRef 0 = .ok r := Memory.peekRef_eq (by omega) (by rw [sp₃]; exact word₃)
  obtain ⟨q₅, called, inCall₅⟩ := advance_call fetched₃ constant₃ top₃ answers locals nested₃.bounded
    body (by omega) q.memory.stack.bp
  -- it returns
  have base : q.memory.stack.bp.toNat = 0 := (Memory.base_eq nested₀).2
  have own : q.memory.stack.bp.toNat ∈ [0] := List.mem_singleton.2 base
  obtain ⟨s, journal, runs, closed⟩ := inCall₅.leaves nested₃ own small₃
  obtain ⟨x, fetched₅, left⟩ : ∃ x, fetch q₅ = .ok .ret x ∧ advance q.memory.stack.bp q₅ =
      .ok .next { q₃ with memory := { q₃.memory with stack := s, pc := pc₄, journal := journal } } := by
    cases runs with
    | step fetched advanced rest =>
      cases rest
      exact ⟨_, fetched, advanced⟩
  let q₆ : Machine := { q₃ with memory := { q₃.memory with stack := s, pc := pc₄, journal := journal } }
  have sp₆ : q₆.memory.stack.sp = 12 := closed.sp.trans sp₃
  -- and so does the run
  obtain ⟨pc₆, fetched₆, -⟩ := fetch_eq (m := q₆) small₃ (unread₄.trans (List.append_assoc _ _ _))
  have words₆ : q₆.memory.stack.HasWords 1 := hasWords_of_nested closed.nested sp₆.ge
  obtain ⟨q₇, stopped⟩ := advance_retTop (base ▸ closed.nested) words₆ fetched₆
  have trace : runSteps 4 entry 0 p = [⟨q, .pushRef r.word, q₁.memory.pc, q₃⟩, ⟨q₃, .call k, pc₄, q₅⟩,
      ⟨q₅, .ret, x.memory.pc, q₆⟩, ⟨q₆, .retTop, pc₆, q₇⟩] := by
    unfold runSteps
    rw [entered]
    dsimp only
    rw [steps_next fetched advanced, steps_next fetched₃ called, steps_next fetched₅ left,
      steps_stop fetched₆ stopped]
    rfl
  refine ⟨q₇.noted (.stopped 4), ⟨q₆, .retTop, pc₆, q₇⟩, ?_, ?_, by rw [trace]; rfl, by rw [trace]; rfl, rfl, ?_⟩
  · intro q' again
    cases again.symm.trans entered
    refine .next fetched ⟨?_, nofun⟩ advanced (.next fetched₃ ⟨?_, nofun⟩ called
      (.next fetched₅ ⟨?_, nofun⟩ left (.stop fetched₆ ⟨words₆, nofun⟩ stopped)))
    · exact hasWords_of_nested (n := 0) nested₀ (by omega)
    · have one : q₃.demand (.call k) = 1 := by
        change (if (textConstant q₃.memory k).isOk then 1 else 0) = 1
        rw [constant₃]
        rfl
      rw [one]
      exact hasWords_of_nested nested₃ sp₃.ge
    · exact hasWords_of_nested (n := 0) (inCall₅.stack.nested nested₃) inCall₅.stack.sp.ge
  · rw [run_eq_ok entered]
    exact (run_bind_ok advanced).trans ((run_bind_ok called).trans ((run_bind_ok left).trans
      (run_bind_ok stopped)))
  · refine Memory.peekRef_eq (sp₆.ge.trans' (by decide)) ?_
    rw [sp₆]
    exact ((closed.same 8 4 (by omega)).word? 0 (by decide)).trans word₃

/-- A new object is asked who it is, and the answer is left on the stack. -/
theorem call_is_neutral : ∃ (p m' : Machine) (r : Ref) (k : Word) (entry : CodeAddress),
    Used p ∧ p.RunsInFrames 4 entry 0 ∧ run 4 entry 0 p = .ok .finished m' ∧
    (runSteps 4 entry 0 p).map Step.instruction = [.pushRef r.word, .call k, .ret, .retTop] ∧
    m'.memory.stack.bp = p.memory.stack.bp ∧ m'.memory.stack.sp = p.memory.stack.sp + 4 ∧
    m'.memory.stack.bytes.word? p.memory.stack.sp = some r.word ∧
    Returns (UInt32.ofNat p.memory.stack.sp) [] (runSteps 4 entry 0 p) := by
  obtain ⟨m₀, made⟩ := Machine.exists_new (show modestSetup.settings.validate = .ok () from rfl)
    (by decide) (by decide)
  obtain ⟨objects, new⟩ := isNew_of_new made
  obtain ⟨-, library, limit, -⟩ := facts_of_new made
  -- the object
  have object : (⟨1⟩ : ClassId).index.toNat < m₀.memory.classes.size := by
    rw [new.classes]
    decide
  have room : ObjectKind.pointers.objectBytes 0 ≤ m₀.memory.space.free := by
    have free : 1200 ≤ m₀.memory.space.free + 351 := new.half_le_free
    change 11 ≤ m₀.memory.space.free
    omega
  obtain ⟨c, known⟩ := classOrNull_of_lt object
  obtain ⟨r, M, -, adds⟩ := Memory.allocateObject_of_room new.wf.sound known room
  obtain ⟨code_eq, -, methods_eq, constants_eq⟩ : M.code = m₀.memory.code ∧ M.pc = m₀.memory.pc ∧
      M.methods = m₀.memory.methods ∧ M.constants = m₀.memory.constants :=
    Memory.program_eq_iff.1 adds.program
  have alone : Memory.Working m₀.memory objects [] m₀.memory objects id [] := new.wf.working
  have work := alone.adds new.wf known adds nofun
  have keeps₀ : KeepsLibrary m₀ m₀ := .refl (by rw [library, limit]; decide)
  have keeps₁ := keeps₀.carried new.wf new.nested work.carries code_eq methods_eq
  -- the code
  obtain ⟨k, entry, m₁, arena, constants, -, -, constant, unread, keeps⟩ :=
    keeps₁.exists_stored "getObjectID" (fun k => Instruction.encodeAll (callCode r k)) (by
      change M.constants.entries.size < _
      rw [constants_eq]
      exact (constants_of_new made).trans_lt (by decide)) (by
      change M.code.bytes.size < _
      rw [code_eq, library]
      decide) (congrArg CodeArena.limit code_eq) fun k => by
      change M.code.bytes.size + 11 ≤ M.code.limit
      rw [code_eq, library, limit]
      decide
  let p : Machine := { m₀ with memory := { M with code := arena, constants := constants } }
  have used : Used p := .host (.new made) adds.stack
  have object : p.memory.classRef ⟨1⟩ = .ok c :=
    (Memory.classOrNull_congr adds.classes (some ⟨1⟩)).trans known
  have instance_ : receiverClass p.memory r = .ok c := by
    have header := (adds.holds new.wf.sound.start_le_top).header adds.sound
    change ((M.header r).map fun header => header.classRef?.getD Ref.null) = _
    rw [header]
    rfl
  obtain ⟨m', last, disciplined, finished, instructions, ends, returns, top⟩ :=
    callCode_runs (p := p) (keeps.hasLibrary made) (adds.stack ▸ new.nested) (adds.stack ▸ new.sp)
      (adds.stack ▸ new.stack_size) constant unread object instance_
  obtain ⟨bp, -, result, -, matched⟩ :=
    run_is_stack_neutral used disciplined finished ends (Or.inr returns)
  obtain ⟨sp, value, answer, word⟩ := result returns
  cases top.symm.trans answer
  exact ⟨p, m', r, k, entry, used, disciplined, finished, instructions, bp, sp, word, matched⟩

end Call

end Machine

end ObjectMachine
