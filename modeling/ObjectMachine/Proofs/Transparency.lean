/-
  ObjectMachine/Proofs/Transparency.lean
  ======================================
  **Collections are invisible** — a careful program does the same on heaps of all sizes that
  are large enough for it.

  Machines that differ in the size of their heaps collect at different moments, and their
  objects lie at different addresses.  Run in lockstep, they carry out the same
  instructions and write the same bytes, as long as none of them runs out of memory.

  A loop that makes nothing but garbage shows the difference in the end: round by round the
  heap fills, and the smaller heap is collected where the larger one is not.
-/
import ObjectMachine.Proofs.FetchedCode
import ObjectMachine.Proofs.Operands

namespace ObjectMachine

open IdealMemory ObjectGraph

/-! ### Runs -/

namespace Machine

/-- The instructions that a run carries out, the one that it fails at included. -/
def executed (entryBase : Word) : Nat → Machine → List Instruction
  | 0, _ => []
  | fuel + 1, m =>
    match fetch m with
    | .error _ _ => []
    | .ok i _ =>
      i :: match advance entryBase m with
        | .ok .next m' => executed entryBase fuel m'
        | _ => []

/-- The program is careful for a number of steps, and has no objects as indices. -/
def Disciplined (entryBase : Word) : Nat → Machine → Prop
  | 0, _ => True
  | fuel + 1, m => (∀ i m', fetch m = .ok i m' → m.Careful i ∧ m.Indexed i) ∧
      ∀ m', advance entryBase m = .ok .next m' → Disciplined entryBase fuel m'

/-- The instructions of a run that starts with a new frame. -/
def trace (fuel : Nat) (entry : CodeAddress) (locals : Word) (m : Machine) : List Instruction :=
  match enter entry locals m with
  | .ok _ m' => executed m'.memory.stack.bp fuel m'
  | .error _ _ => []

/-- The code at an address is run in a new frame, with discipline. -/
def RunsDisciplined (fuel : Nat) (entry : CodeAddress) (locals : Word) (m : Machine) : Prop :=
  ∀ m', enter entry locals m = .ok () m' → Disciplined m'.memory.stack.bp fuel m'

section Steps

variable {entryBase : Word} {fuel steps : Nat} {m m' m'' : Machine} {e : MachineError}
  {i : Instruction}

theorem advance_error (h : fetch m = .error e m') : advance entryBase m = .error e m' :=
  (run_get_bind _).trans (run_bind_error h)

theorem runFrom_error (h : advance entryBase m = .error e m') :
    runFrom entryBase (fuel + 1) steps m = .error e m' := run_bind_error h

theorem runFrom_next (h : advance entryBase m = .ok .next m') :
    runFrom entryBase (fuel + 1) steps m = runFrom entryBase fuel (steps + 1) m' := run_bind_ok h

theorem runFrom_stop (h : advance entryBase m = .ok .stop m') :
    runFrom entryBase (fuel + 1) steps m =
      (do Memory.note (.stopped (steps + 1)); return .finished : Run Progress) m' := run_bind_ok h

theorem executed_nil (h : fetch m = .error e m') : executed entryBase (fuel + 1) m = [] := by
  rw [executed, h]

theorem executed_next (h : fetch m = .ok i m') (next : advance entryBase m = .ok .next m'') :
    executed entryBase (fuel + 1) m = i :: executed entryBase fuel m'' := by
  rw [executed, h, next]

theorem executed_stop (h : fetch m = .ok i m') (stop : advance entryBase m = .ok .stop m'') :
    executed entryBase (fuel + 1) m = [i] := by
  rw [executed, h, stop]

theorem executed_error (h : fetch m = .ok i m') (failed : advance entryBase m = .error e m'') :
    executed entryBase (fuel + 1) m = [i] := by
  rw [executed, h, failed]

end Steps

end Machine

/-! ### What is seen of a run -/

/-- The result of a run, without the machine. -/
def outcome {α : Type} : EStateM.Result MachineError Machine α → Except MachineError α
  | .ok a _ => .ok a
  | .error e _ => .error e.kind

/-- The machine after a run. -/
def final {α : Type} : EStateM.Result MachineError Machine α → Machine
  | .ok _ m => m
  | .error _ m => m

/-- The run has failed for want of memory. -/
def OutOfMemory {α : Type} (r : EStateM.Result MachineError Machine α) : Prop :=
  ∃ n available m, r = .error (.memory (.outOfMemory n available)) m

/-- Runs that end in the same way and leave the same output and the same files. -/
structure Alike {ι α : Type} (r : ι → EStateM.Result MachineError Machine α) : Prop where
  outcome : ∀ i j, outcome (r i) = ObjectMachine.outcome (r j)
  host : ∀ i j, (final (r i)).host = (final (r j)).host

section Runs

variable {ι α : Type} {limit : ι → Nat} {w : World ι} {m : ι → Machine}

theorem Alike.of_ok {a : α} (holds : w.Holds limit m) :
    Alike fun i => (.ok a (m i) : EStateM.Result MachineError Machine α) where
  outcome _ _ := rfl
  host i j := (holds.host i).trans (holds.host j).symm

theorem Alike.of_error {e : ι → MachineError} (holds : w.Holds limit m)
    (kinds : ∀ i j, (e i).kind = (e j).kind) :
    Alike fun i => (.error (e i) (m i) : EStateM.Result MachineError Machine α) where
  outcome i j := congrArg Except.error (kinds i j)
  host i j := (holds.host i).trans (holds.host j).symm

/-- **Runs in lockstep.**  Whatever number of steps machines with the same world take, one of
    them runs out of memory, or they carry out the same instructions and end alike. -/
theorem runFrom_alike [Nonempty ι] (entryBase : Word) (fuel steps : Nat) (holds : w.Holds limit m)
    (disciplined : ∀ j, Machine.Disciplined entryBase fuel (m j)) :
    (∃ i, OutOfMemory (Machine.runFrom entryBase fuel steps (m i))) ∨
      (∀ i j, Machine.executed entryBase fuel (m i) = Machine.executed entryBase fuel (m j)) ∧
      Alike fun i => Machine.runFrom entryBase fuel steps (m i) := by
  induction fuel generalizing w m steps with
  | zero => exact Or.inr ⟨fun _ _ => rfl, Alike.of_ok holds⟩
  | succ fuel ih =>
    rcases Lockstep.fetch (fun _ _ => trivial) m holds with exhausted | fetched | fails
    · obtain ⟨i, n, available, m', A, η, run, -⟩ := exhausted
      exact Or.inl ⟨i, n, available, m', Machine.runFrom_error (Machine.advance_error run)⟩
    · obtain ⟨w₁, a, m₁, fetch, -, instruction, pc, rfl, -⟩ := fetched
      have stepped := Lockstep.advance entryBase holds
        (fun j i m' found => ((disciplined j).1 i m' found).1)
        (Or.inr fun j i m' found => ((disciplined j).1 i m' found).2) (fun _ _ => trivial)
      rcases stepped with exhausted | succeeds | fails
      · obtain ⟨i, n, available, m', A, η, run, -⟩ := exhausted
        exact Or.inl ⟨i, n, available, m', Machine.runFrom_error run⟩
      · obtain ⟨w₂, a, m₂, run, holds₂, flow, rfl⟩ := succeeds
        cases flow with
        | next =>
          have same : ∀ i, Machine.runFrom entryBase (fuel + 1) steps (m i) =
              Machine.runFrom entryBase fuel (steps + 1) (m₂ i) :=
            fun i => Machine.runFrom_next (run i)
          have rest := ih (steps + 1) holds₂ fun j => (disciplined j).2 (m₂ j) (run j)
          simp only [same]
          refine rest.imp_right fun ⟨executed, alike⟩ => ⟨?_, alike⟩
          intro i j
          rw [Machine.executed_next (fetch i) (run i), Machine.executed_next (fetch j) (run j),
            executed i j]
        | stop =>
          refine Or.inr ⟨?_, ?_⟩
          · intro i j
            rw [Machine.executed_stop (fetch i) (run i), Machine.executed_stop (fetch j) (run j)]
          · simp only [Machine.runFrom_stop (run _)]
            exact ⟨fun _ _ => rfl, (Alike.of_ok (a := ()) holds₂).host⟩
      · obtain ⟨w₂, e, m₂, run, kinds, holds₂, -⟩ := fails
        refine Or.inr ⟨?_, ?_⟩
        · intro i j
          rw [Machine.executed_error (fetch i) (run i), Machine.executed_error (fetch j) (run j)]
        · simp only [Machine.runFrom_error (run _)]
          exact Alike.of_error holds₂ kinds
    · obtain ⟨w₁, e, m₁, run, kinds, holds₁, -⟩ := fails
      refine Or.inr ⟨?_, ?_⟩
      · intro i j
        rw [Machine.executed_nil (run i), Machine.executed_nil (run j)]
      · simp only [Machine.runFrom_error (Machine.advance_error (run _))]
        exact Alike.of_error holds₁ kinds

/-- A run in a new frame. -/
theorem run_alike [Nonempty ι] (fuel : Nat) (entry : CodeAddress) (locals : Word)
    (holds : w.Holds limit m)
    (disciplined : ∀ j, Machine.RunsDisciplined fuel entry locals (m j)) :
    (∃ i, OutOfMemory (Machine.run fuel entry locals (m i))) ∨
      (∀ i j, Machine.trace fuel entry locals (m i) = Machine.trace fuel entry locals (m j)) ∧
      Alike fun i => Machine.run fuel entry locals (m i) := by
  have entered : Lockstep limit w (fun _ => Machine.enter entry locals) _ fun _ _ => True :=
    Lockstep.enter entry locals fun _ _ => trivial
  rcases entered m holds with exhausted | succeeds | fails
  · obtain ⟨i, n, available, m', A, η, run, -⟩ := exhausted
    exact Or.inl ⟨i, n, available, m', Machine.run_eq_error run⟩
  · obtain ⟨w₁, a, m₁, run, holds₁, -⟩ := succeeds
    have base : ∀ i, (m₁ i).memory.stack.bp = w₁.memory.bp := fun i => (holds₁.shows_ i).stack.bp_eq
    have same : ∀ i, Machine.run fuel entry locals (m i) =
        Machine.runFrom w₁.memory.bp fuel 0 (m₁ i) := by
      intro i
      rw [Machine.run_eq_ok (run i), base i]
    have traces : ∀ i, Machine.trace fuel entry locals (m i) =
        Machine.executed w₁.memory.bp fuel (m₁ i) := by
      intro i
      rw [Machine.trace, show Machine.enter entry locals (m i) = _ from run i]
      dsimp only
      rw [base i]
    simp only [same, traces]
    refine runFrom_alike w₁.memory.bp fuel 0 holds₁ ?_
    intro j
    have here := disciplined j (m₁ j) (run j)
    rwa [base j] at here
  · obtain ⟨w₁, e, m₁, run, kinds, holds₁, -⟩ := fails
    refine Or.inr ⟨?_, ?_⟩
    · intro i j
      rw [Machine.trace, show Machine.enter entry locals (m i) = _ from run i, Machine.trace,
        show Machine.enter entry locals (m j) = _ from run j]
    · simp only [Machine.run_eq_error (run _)]
      exact Alike.of_error holds₁ kinds

end Runs

/-! ### Two heaps -/

/-- **Collections are invisible.**  A program that is assembled on machines with heaps of two
    sizes, and is careful on both, does the same on both for any number of steps after which
    neither has run out of memory. -/
theorem collections_are_invisible {setup : Machine.Setup} {heap₁ heap₂ : Nat} {source : String}
    {m₁ m₂ p₁ p₂ : Machine} {entry₁ entry₂ : CodeAddress}
    (made₁ : Machine.new (setup.withHeap heap₁) = .ok m₁)
    (made₂ : Machine.new (setup.withHeap heap₂) = .ok m₂)
    (assembled₁ : Machine.assemble source m₁ = .ok entry₁ p₁)
    (assembled₂ : Machine.assemble source m₂ = .ok entry₂ p₂) (fuel : Nat) (locals : Word)
    (disciplined₁ : p₁.RunsDisciplined fuel entry₁ locals)
    (disciplined₂ : p₂.RunsDisciplined fuel entry₂ locals)
    (memory₁ : ¬OutOfMemory (Machine.run fuel entry₁ locals p₁))
    (memory₂ : ¬OutOfMemory (Machine.run fuel entry₂ locals p₂)) :
    p₁.trace fuel entry₁ locals = p₂.trace fuel entry₂ locals ∧
      outcome (Machine.run fuel entry₁ locals p₁) = outcome (Machine.run fuel entry₂ locals p₂) ∧
      (final (Machine.run fuel entry₁ locals p₁)).host =
        (final (Machine.run fuel entry₂ locals p₂)).host := by
  let m (second : Bool) : Machine := if second then m₂ else m₁
  let p (second : Bool) : Machine := if second then p₂ else p₁
  let heap (second : Bool) : Nat := if second then heap₂ else heap₁
  let entry (second : Bool) : CodeAddress := if second then entry₂ else entry₁
  have made : ∀ i, Machine.new (setup.withHeap (heap i)) = .ok (m i) := by
    intro i
    cases i with
    | false => exact made₁
    | true => exact made₂
  have assembled : ∀ i, Machine.assemble source (m i) = .ok (entry i) (p i) := by
    intro i
    cases i with
    | false => exact assembled₁
    | true => exact assembled₂
  obtain ⟨w, holds, -⟩ := World.holds_new made
  rcases Lockstep.assemble source (fun _ _ => trivial) m holds with exhausted | succeeds | fails
  · obtain ⟨i, n, available, m', A, η, run, -⟩ := exhausted
    cases (assembled i).symm.trans run
  · obtain ⟨w', a, p', run, holds', code, rfl⟩ := succeeds
    have same : ∀ i, code = entry i ∧ p' i = p i := fun i =>
      EStateM.Result.ok.inj ((run i).symm.trans (assembled i))
    obtain rfl : p' = p := funext fun i => (same i).2
    obtain rfl : code = entry₁ := (same false).1
    obtain rfl : code = entry₂ := (same true).1
    have disciplined : ∀ i, (p i).RunsDisciplined fuel code locals := by
      intro i
      cases i with
      | false => exact disciplined₁
      | true => exact disciplined₂
    rcases run_alike fuel code locals holds' disciplined with ⟨i, short⟩ | ⟨traces, alike⟩
    · cases i with
      | false => exact absurd short memory₁
      | true => exact absurd short memory₂
    · exact ⟨traces false true, alike.outcome false true, alike.host false true⟩
  · obtain ⟨w', e, m', run, -⟩ := fails
    cases (assembled false).symm.trans (run false)

/-! ### Garbage on two heaps -/

/-- Makes an Integer and drops it, again and again. -/
def garbageProgram : List String := ["again: new-int 7", "pop-ref", "jmp @again"]

def garbageCode : List Instruction := [.newInt 7, .popRef, .jump (-11)]

theorem quietCode?_garbageProgram :
    quietCode? garbageProgram = some (Instruction.encodeAll garbageCode) := by decide +kernel

namespace Memory

/-- **The heap fills**, or it is collected for want of so many bytes. -/
structure Fills (n : Nat) (m m' : Memory) : Prop where
  half : m'.space.half = m.space.half
  grown : (m'.space.activeStart = m.space.activeStart ∧ m'.space.top = m.space.top + n ∧
      m'.stats.cycles = m.stats.cycles) ∨
    (m.space.free < n ∧ m.stats.cycles < m'.stats.cycles)

theorem Fills.trans {a b : Nat} {m m₁ m' : Memory} (first : Fills a m m₁) (second : Fills b m₁ m') :
    Fills (a + b) m m' := by
  refine ⟨second.half.trans first.half, ?_⟩
  have half := first.half
  have first := first.grown
  have second := second.grown
  unfold SemiSpaces.free SemiSpaces.activeEnd at first second ⊢
  omega

end Memory

namespace Machine

open Memory

variable {entryBase : Word} {n k steps half : Nat} {m m₁ m' : Machine} {more : List UInt8}

/-! ### Careful steps -/

/-- So many instructions are carried out with care, and the run goes on after them. -/
inductive CarefulSteps (entryBase : Word) : Nat → Machine → Machine → Prop where
  | done {m : Machine} : CarefulSteps entryBase 0 m m
  | step {n : Nat} {m x m₁ m' : Machine} {i : Instruction} (fetched : fetch m = .ok i x)
      (careful : m.Careful i) (indexed : m.Indexed i) (advanced : advance entryBase m = .ok .next m₁)
      (rest : CarefulSteps entryBase n m₁ m') : CarefulSteps entryBase (n + 1) m m'

theorem CarefulSteps.trans (first : CarefulSteps entryBase n m m₁)
    (second : CarefulSteps entryBase k m₁ m') : CarefulSteps entryBase (k + n) m m' := by
  induction first with
  | done => exact second
  | step fetched careful indexed advanced _ ih => exact .step fetched careful indexed advanced (ih second)

theorem CarefulSteps.disciplined (run : CarefulSteps entryBase n m m') : Disciplined entryBase n m := by
  induction run with
  | done => trivial
  | step fetched careful indexed advanced _ ih =>
    constructor
    · intro j x' found
      cases fetched.symm.trans found
      exact ⟨careful, indexed⟩
    · intro x' next
      cases advanced.symm.trans next
      exact ih

theorem CarefulSteps.runFrom_eq (run : CarefulSteps entryBase n m m') (steps : Nat) :
    runFrom entryBase n steps m = .ok .unfinished m' := by
  induction run generalizing steps with
  | done => rfl
  | step _ _ _ advanced _ ih => exact (runFrom_next advanced).trans (ih (steps + 1))

/-! ### The loop -/

/-- **Tidy.**  The frame of the program holds nothing, and behind what the library takes there is
    nothing but garbage. -/
structure Tidy (half : Nat) (m : Machine) : Prop where
  integer : ∃ c, m.memory.classOrNull m.known.integer = .ok c
  nested : m.memory.stack.Nested [0]
  sp : m.memory.stack.sp = 8
  size : m.memory.stack.bytes.size = 64
  half_eq : m.memory.space.half = half
  heap : ∃ (base : Memory) (objects : Set Ref), base.WellFormed objects ∧ base.Grows m.memory ∧
    m.memory.WellFormed objects ∧ base.space.top - base.space.activeStart ≤ libraryVolume

/-- An Integer is made, after a collection if need be. -/
theorem Tidy.newInteger_ok (tidy : m.Tidy half) (enough : libraryVolume + 15 ≤ half) (value : Word) :
    ∃ r M, newInteger value m = .ok r { m with memory := M } ∧ Tidy half { m with memory := M } ∧
      M.program = m.memory.program ∧ m.memory.Fills 15 M := by
  obtain ⟨c, known⟩ := tidy.integer
  obtain ⟨base, objects, wf₀, grows, wf, volume⟩ := tidy.heap
  have bare : m.memory.stack.liveWords = [] := tidy.nested.liveWords_of_bare tidy.sp
  by_cases room : 15 ≤ m.memory.space.free
  · obtain ⟨r, M, made, adds⟩ := newInteger_of_room wf.sound known value room
    have half_eq := adds.grows.half_eq wf.sound
    refine ⟨r, M, made, ?_, adds.program, half_eq,
      Or.inl ⟨adds.start, adds.top, congrArg CollectionStats.cycles adds.stats⟩⟩
    refine
      { integer := ⟨c, (classOrNull_congr adds.classes _).trans known⟩
        nested := adds.stack ▸ tidy.nested
        sp := adds.stack ▸ tidy.sp
        size := adds.stack ▸ tidy.size
        half_eq := half_eq.trans tidy.half_eq
        heap := ⟨base, objects, wf₀, grows.trans adds.grows, ?_, volume⟩ }
    refine adds.grows.wellFormed wf fun a live => ?_
    rw [adds.stack, bare] at live
    cases live
  · -- nothing but the library is copied
    have full : m.memory.space.free < ObjectKind.bytes.objectBytes 4 := Nat.not_le.1 room
    have fits : base.space.top - base.space.activeStart + ObjectKind.bytes.objectBytes 4 ≤
        m.memory.space.half := by
      change base.space.top - base.space.activeStart + 15 ≤ _
      have := tidy.half_eq
      omega
    obtain ⟨m₁, φ, r, m₂, run, copied, used, allocated, adds⟩ := allocateObject_of_full wf₀ grows wf
      tidy.nested.whole.readable known full fits
    obtain ⟨M, made, adds⟩ := newBytes_of_adds (Word.length_bytes value)
      (fun addr => .newInteger addr value) copied.sound allocated adds
    have wf₁ := copied.wellFormed wf tidy.nested.whole
    have stack : M.stack = m.memory.stack := by
      obtain ⟨chain, found, moved⟩ := copied.stack
      cases tidy.nested.chain_eq.symm.trans found
      rw [adds.stack, moved, tidy.nested.liveOffsets_of_bare tidy.sp]
      rfl
    have half_eq := (adds.grows.half_eq copied.sound).trans (copied.half_eq wf)
    obtain ⟨_, _, _, _, e, -, -, after⟩ := collected_eq_ok (collected_of_collect run)
    have program : m₁.program = m.memory.program := by rw [after]; rfl
    have cycles : m₁.stats.cycles = m.memory.stats.cycles + 1 := by rw [after]; rfl
    refine ⟨r, M, made, ?_, adds.program.trans program, half_eq, Or.inr ⟨Nat.not_le.1 room, ?_⟩⟩
    · refine
        { integer := ⟨(m.memory.graph objects).follow φ c, ?_⟩
          nested := stack ▸ tidy.nested
          sp := stack ▸ tidy.sp
          size := stack ▸ tidy.size
          half_eq := half_eq.trans tidy.half_eq
          heap := ⟨m₁, _, wf₁, adds.grows, ?_, used.trans volume⟩ }
      · refine (classOrNull_congr adds.classes _).trans ?_
        rw [copied.classOrNull_eq wf, known]
        rfl
      · refine adds.grows.wellFormed wf₁ fun a live => ?_
        rw [stack, bare] at live
        cases live
    · rw [adds.stats, cycles]
      exact Nat.lt_succ_self _

theorem Tidy.moved (tidy : m.Tidy half) (pc : CodeAddress) (event : Event) :
    Tidy half ((m.withPc pc).noted event) := by
  obtain ⟨base, objects, wf₀, grows, wf, volume⟩ := tidy.heap
  exact { tidy with heap := ⟨base, objects, wf₀, { grows with }, ⟨wf.sound, wf.graph⟩, volume⟩ }

theorem Tidy.withStack (tidy : m.Tidy half) {s : FrameStack} (nested : s.Nested [0]) (sp : s.sp = 8)
    (size : s.bytes.size = 64) : Tidy half { m with memory := { m.memory with stack := s } } := by
  obtain ⟨base, objects, wf₀, grows, -, volume⟩ := tidy.heap
  refine { tidy with
    nested := nested
    sp := sp
    size := size
    heap := ⟨base, objects, wf₀, grows.withStack s, ?_, volume⟩ }
  refine (grows.withStack s).wellFormed wf₀ fun a live => ?_
  rw [nested.liveWords_of_bare sp] at live
  cases live

variable (small : m.memory.code.bytes.size < wordLimit)
include small

/-- An Integer is made and pushed. -/
theorem Tidy.advance_newInt (tidy : m.Tidy half) (enough : libraryVolume + 15 ≤ half) {value : Word}
    (rest : m.unread = (Instruction.newInt value).encode ++ more) (entryBase : Word) :
    ∃ x m₁, fetch m = .ok (.newInt value) x ∧ advance entryBase m = .ok .next m₁ ∧
      m₁.unread = more ∧ m₁.memory.code = m.memory.code ∧ m.memory.Fills 15 m₁.memory ∧
      m₁.memory.stack.Nested [0] ∧ m₁.memory.stack.sp = 12 ∧
      Tidy half { m₁ with memory := m₁.memory.popped } := by
  obtain ⟨pc, fetched, rest₁⟩ := fetch_eq small rest
  obtain ⟨r, M, made, tidy₁, program, fills⟩ :=
    (tidy.moved pc (.executed m.memory.pc (.newInt value))).newInteger_ok enough value
  have room : M.stack.sp + 4 ≤ M.stack.bytes.size := by
    rw [show M.stack.sp = 8 from tidy₁.sp, show M.stack.bytes.size = 64 from tidy₁.size]
    decide
  have nested : (M.stack.pushed r.word).Nested [0] := tidy₁.nested.pushed room r.word
  have sp : (M.stack.pushed r.word).sp = 12 := congrArg (· + 4) tidy₁.sp
  have pushed : pushRef r M = .ok () { M with stack := M.stack.pushed r.word } := Memory.pushRef_eq room
  have stepped : step entryBase (.newInt value) ((m.withPc pc).noted (.executed m.memory.pc (.newInt value))) =
      .ok .next { m with memory := { M with stack := M.stack.pushed r.word } } :=
    run_bind_ok ((run_bind_ok made).trans (Lockstep.onMemory_ok pushed))
  obtain ⟨code, pc_eq, -⟩ := Memory.program_eq_iff.1 program
  refine ⟨_, _, fetched, (advance_of_fetch fetched).trans stepped, ?_, code, ⟨fills.half, fills.grown⟩,
    nested, sp, ?_⟩
  · rw [← rest₁]
    unfold unread
    dsimp only
    rw [code, pc_eq]
    rfl
  · refine tidy₁.withStack (s := (M.stack.pushed r.word).dropped) (nested.dropped ?_ ?_) ?_ ?_
    · omega
    · simp [sp]
    · change (M.stack.pushed r.word).sp - 4 = 8
      omega
    · exact (Bytes.size_overwrite _ _ _).trans tidy₁.size

/-- What is on top is dropped. -/
theorem advance_popRef (rest : m.unread = Instruction.popRef.encode ++ more)
    (nested : m.memory.stack.Nested [0]) (sp : m.memory.stack.sp = 12)
    (tidy : Tidy half { m with memory := m.memory.popped }) (entryBase : Word) :
    ∃ x m₁, fetch m = .ok .popRef x ∧ advance entryBase m = .ok .next m₁ ∧
      m₁.unread = more ∧ m₁.memory.code = m.memory.code ∧ m₁.memory.space = m.memory.space ∧
      m₁.memory.stats = m.memory.stats ∧ Tidy half m₁ := by
  obtain ⟨pc, fetched, rest₁⟩ := fetch_eq small rest
  have fits := nested.bounded.sp_le
  obtain ⟨w, word⟩ : ∃ w, m.memory.stack.bytes.word? (m.memory.stack.sp - 4) = some w :=
    (Bytes.word?_eq_some_iff_le _ _).2 (by omega)
  let q := (m.withPc pc).noted (.executed m.memory.pc .popRef)
  have popped : popRef q.memory = .ok ⟨w⟩ q.memory.popped :=
    Memory.popRef_eq (show 4 ≤ m.memory.stack.sp by omega) word
  have stepped : step entryBase .popRef q = .ok .next { q with memory := q.memory.popped } :=
    run_bind_ok (Lockstep.onMemory_ok popped)
  exact ⟨_, _, fetched, (advance_of_fetch fetched).trans stepped, rest₁, rfl, rfl, rfl,
    tidy.moved pc (.executed m.memory.pc .popRef)⟩

theorem fetch_jump {offset : Word} (rest : m.unread = (Instruction.jump offset).encode ++ more) :
    fetch m = .ok (.jump offset) (m.withPc (m.memory.pc.advance 5)) := by
  have first : m.unread = Opcode.jump.byte :: (offset.bytes ++ more) := rest
  have rest₁ : (m.withPc (m.memory.pc.advance 1)).unread = offset.bytes ++ more :=
    unread_withPc (show m.unread = [Opcode.jump.byte] ++ (offset.bytes ++ more) from first) small rfl
      nofun
  have five : (m.memory.pc.advance 1).advance 4 = m.memory.pc.advance 5 :=
    congrArg CodeAddress.mk (UInt32.add_assoc _ 1 4)
  unfold fetch
  rw [run_get_bind, run_bind_ok (fetchByte_run first), Opcode.ofByte?_byte, ← five]
  exact run_bind_ok (fetchWord_run rest₁)

omit small

/-- Where the jump leads from the end of the loop. -/
theorem toNat_back {pc : CodeAddress} {n : Nat} (small : n + 11 < wordLimit) (at_ : pc.word.toNat = n + 6) :
    ((pc.advance 5).advance (-11)).word.toNat = n := by
  have minus : (-11 : Word).toNat = 4294967285 := rfl
  have five : (5 : Word).toNat = 5 := rfl
  unfold wordLimit at small
  simp only [CodeAddress.advance, UInt32.toNat_add, minus, five, at_]
  omega

/-- **At the start of the loop.** -/
structure Looping (half : Nat) (m : Machine) : Prop extends Tidy half m where
  code : ∃ before, m.memory.code.bytes.toList = before ++ Instruction.encodeAll garbageCode ∧
    m.memory.pc.word.toNat = before.length
  small : m.memory.code.bytes.size < wordLimit

/-- **Once around the loop**, with care. -/
theorem Looping.round (looping : m.Looping half) (enough : libraryVolume + 15 ≤ half)
    (entryBase : Word) : ∃ m', CarefulSteps entryBase 3 m m' ∧ m'.Looping half ∧
      m.memory.Fills 15 m'.memory := by
  obtain ⟨before, code, pc⟩ := looping.code
  have small := looping.small
  have length : m.memory.code.bytes.size = before.length + 11 := by
    rw [← Array.length_toList, code, List.length_append]
    rfl
  have unread : m.unread = (Instruction.newInt 7).encode ++ (Instruction.popRef.encode ++
      ((Instruction.jump (-11)).encode ++ [])) := by
    rw [Machine.unread, code, pc, List.drop_left]
    rfl
  obtain ⟨x, m₁, fetched, made, unread₁, code₁, fills, nested₁, sp₁, tidy₁⟩ :=
    looping.toTidy.advance_newInt small enough unread entryBase
  obtain ⟨x₁, m₂, fetched₁, dropped, unread₂, code₂, space₂, stats₂, tidy₂⟩ :=
    advance_popRef (code₁ ▸ small) unread₁ nested₁ sp₁ tidy₁ entryBase
  have same : m₂.memory.code = m.memory.code := code₂.trans code₁
  have small₂ : m₂.memory.code.bytes.size < wordLimit := same ▸ small
  have fetched₂ := fetch_jump small₂ unread₂
  -- the jump leads back to the start
  have left : m₂.memory.code.bytes.size - m₂.memory.pc.word.toNat = 5 := by
    rw [← length_unread, unread₂]
    rfl
  have back : ((m₂.memory.pc.advance 5).advance (-11)).word.toNat = before.length := by
    rw [same, length] at left
    refine toNat_back (length ▸ small) ?_
    omega
  obtain ⟨start, start_eq, jumped⟩ : ∃ start : CodeAddress, start.word.toNat = before.length ∧
      advance entryBase m₂ = .ok .next (((m₂.withPc (m₂.memory.pc.advance 5)).noted
        (.executed m₂.memory.pc (.jump (-11)))).withPc start) :=
    ⟨_, back, advance_of_fetch fetched₂⟩
  have careful : m.Careful (.newInt 7) := careful_newInt (hasWords_of_nested looping.nested looping.sp.ge)
  have careful₁ : m₁.Careful .popRef := careful_popRef (hasWords_of_nested nested₁ sp₁.ge)
  have careful₂ : m₂.Careful (.jump (-11)) := careful_jump (hasWords_of_nested tidy₂.nested tidy₂.sp.ge)
  refine ⟨_, .step fetched careful ?_ made (.step fetched₁ careful₁ ?_ dropped
    (.step fetched₂ careful₂ ?_ jumped .done)), ?_, ?_⟩
  · apply indexed_of_ne <;> simp
  · apply indexed_of_ne <;> simp
  · apply indexed_of_ne <;> simp
  · have moved : Tidy half (((m₂.withPc (m₂.memory.pc.advance 5)).noted
        (.executed m₂.memory.pc (.jump (-11)))).withPc start) := tidy₂.moved start _
    exact { moved with
      code := ⟨before, same ▸ code, start_eq⟩
      small := small₂ }
  · have grown := fills.grown
    have half := fills.half
    rw [← space₂, ← stats₂] at grown
    rw [← space₂] at half
    exact ⟨half, grown⟩

/-- **Round and round the loop.** -/
theorem Looping.rounds (enough : libraryVolume + 15 ≤ half) (entryBase : Word) (n : Nat)
    (looping : m.Looping half) : ∃ m', CarefulSteps entryBase (3 * n) m m' ∧ m'.Looping half ∧
      m.memory.Fills (15 * n) m'.memory := by
  induction n generalizing m with
  | zero => exact ⟨m, .done, looping, rfl, Or.inl ⟨rfl, rfl, rfl⟩⟩
  | succ n ih =>
    obtain ⟨m₁, round, looping₁, fills⟩ := looping.round enough entryBase
    obtain ⟨m', rounds, looping', fills'⟩ := ih looping₁
    refine ⟨m', round.trans rounds, looping', ?_⟩
    rw [Nat.mul_succ, Nat.add_comm]
    exact fills.trans fills'

/-- **The loop on a new machine** with a heap of any size that suffices for the library and an
    Integer. -/
theorem garbageProgram_rounds {heap : Nat} {m : Machine}
    (made : Machine.new (modestSetup.withHeap heap) = .ok m) (enough : libraryVolume + 15 ≤ heap / 2)
    (n : Nat) : ∃ entry p m', Machine.assemble ("\n".intercalate garbageProgram) m = .ok entry p ∧
      p.RunsDisciplined (3 * n) entry 0 ∧ run (3 * n) entry 0 p = .ok .unfinished m' ∧
      p.memory.Fills (15 * n) m'.memory ∧ m'.memory.space.Sound ∧ p.memory.space.half = heap / 2 ∧
      p.memory.space.activeStart ≤ p.memory.space.top ∧
      p.memory.space.top ≤ p.memory.space.activeStart + libraryVolume := by
  obtain ⟨services, library, limit, -⟩ := facts_of_new made
  obtain ⟨objects, new⟩ := isNew_of_new made
  have length : (Instruction.encodeAll garbageCode).length = 11 := rfl
  have assembled := assemble_eq services quietCode?_garbageProgram (m := m) (by
    rw [library, limit, length]
    exact (show libraryCode + 11 ≤ 600 by decide))
  have frame : m.memory.stack.sp + 8 ≤ m.memory.stack.bytes.size := by
    rw [new.sp, new.stack_size]
    exact (show 8 ≤ 64 by decide)
  let p : Machine := { m with memory := { m.memory with code := { m.memory.code with
    bytes := m.memory.code.bytes.appendList (Instruction.encodeAll garbageCode) } } }
  let entry := CodeAddress.ofOffset m.memory.code.bytes.size
  let q : Machine := { p with memory := { p.memory with
    stack := m.memory.stack.opened m.memory.pc, pc := entry } }
  have entered : enter entry 0 p = .ok () q := enter_eq entry frame
  have nested : q.memory.stack.Nested [0] := new.sp ▸ new.nested.opened frame m.memory.pc
  have sp : q.memory.stack.sp = 8 := congrArg (· + 8) new.sp
  have grows : m.memory.Grows q.memory :=
    ⟨new.wf.sound, rfl, rfl, Nat.le_refl _, fun _ _ _ _ _ => rfl, rfl, rfl⟩
  have wf : q.memory.WellFormed objects := by
    refine grows.wellFormed new.wf fun a live => ?_
    rw [nested.liveWords_of_bare sp] at live
    cases live
  have bytes : q.memory.code.bytes.toList =
      m.memory.code.bytes.toList ++ Instruction.encodeAll garbageCode := by
    change (m.memory.code.bytes.appendList _).toList = _
    rw [Array.appendList_eq_append, Array.toList_appendList]
  have volume : m.memory.space.top - m.memory.space.activeStart ≤ libraryVolume :=
    Nat.sub_le_iff_le_add'.2 new.top
  have looping : q.Looping (heap / 2) :=
    { integer := new.exists_integer
      nested := nested
      sp := sp
      size := (Bytes.size_overwrite _ _ _).trans new.stack_size
      half_eq := new.half
      heap := ⟨m.memory, objects, new.wf, grows, wf, volume⟩
      code := by
        refine ⟨_, bytes, ?_⟩
        rw [Array.length_toList]
        refine UInt32.toNat_ofNat_of_lt' ?_
        rw [library]
        decide
      small := by
        rw [← Array.length_toList, bytes, List.length_append, Array.length_toList, library, length]
        decide }
  obtain ⟨m', steps, looping', fills⟩ := looping.rounds enough q.memory.stack.bp n
  obtain ⟨_, _, _, grows', -⟩ := looping'.heap
  refine ⟨entry, p, m', assembled, ?_, ?_, ⟨fills.half, fills.grown⟩, grows'.sound, new.half,
    new.wf.sound.start_le_top, new.top⟩
  · intro q' again
    cases again.symm.trans entered
    exact steps.disciplined
  · rw [run_eq_ok entered]
    exact steps.runFrom_eq 0

end Machine

/-- On a small heap and on one that holds all, the loop makes 27 Integers. -/
theorem collections_invisible_garbage : ∃ m₁ m₂ p₁ p₂ entry₁ entry₂,
    Machine.new (modestSetup.withHeap 800) = .ok m₁ ∧
    Machine.new (modestSetup.withHeap 2400) = .ok m₂ ∧
    Machine.assemble ("\n".intercalate garbageProgram) m₁ = .ok entry₁ p₁ ∧
    Machine.assemble ("\n".intercalate garbageProgram) m₂ = .ok entry₂ p₂ ∧
    p₁.memory.stats.cycles < (final (Machine.run 81 entry₁ 0 p₁)).memory.stats.cycles ∧
    (final (Machine.run 81 entry₂ 0 p₂)).memory.stats.cycles = p₂.memory.stats.cycles ∧
    p₁.trace 81 entry₁ 0 = p₂.trace 81 entry₂ 0 ∧
    outcome (Machine.run 81 entry₁ 0 p₁) = outcome (Machine.run 81 entry₂ 0 p₂) := by
  obtain ⟨m₁, made₁⟩ := Machine.exists_new
    (show (modestSetup.withHeap 800).settings.validate = .ok () from rfl) (by decide) (by decide)
  obtain ⟨m₂, made₂⟩ := Machine.exists_new
    (show (modestSetup.withHeap 2400).settings.validate = .ok () from rfl) (by decide) (by decide)
  obtain ⟨entry₁, p₁, m₁', assembled₁, disciplined₁, run₁, fills₁, sound₁, half₁, start₁, -⟩ :=
    Machine.garbageProgram_rounds made₁ (by decide) 27
  obtain ⟨entry₂, p₂, m₂', assembled₂, disciplined₂, run₂, fills₂, -, half₂, -, top₂⟩ :=
    Machine.garbageProgram_rounds made₂ (by decide) 27
  have no_shortage : ∀ {fuel entry p m'}, Machine.run fuel entry 0 p = .ok .unfinished m' →
      ¬OutOfMemory (Machine.run fuel entry 0 p) := by
    rintro fuel entry p m' run ⟨need, available, m'', failed⟩
    cases run.symm.trans failed
  obtain ⟨traces, outcomes, -⟩ := collections_are_invisible made₁ made₂ assembled₁ assembled₂ 81 0
    disciplined₁ disciplined₂ (no_shortage run₁) (no_shortage run₂)
  refine ⟨m₁, m₂, p₁, p₂, entry₁, entry₂, made₁, made₂, assembled₁, assembled₂, ?_, ?_, traces,
    outcomes⟩
  · -- 27 Integers of 15 bytes are more than a half of 400 bytes
    rw [show Machine.run 81 entry₁ 0 p₁ = _ from run₁]
    have half := fills₁.half
    have fits := sound₁.top_le_end
    unfold SemiSpaces.activeEnd at fits
    rcases fills₁.grown with ⟨start, top, -⟩ | ⟨-, collected⟩
    · omega
    · exact collected
  · rw [show Machine.run 81 entry₂ 0 p₂ = _ from run₂]
    rcases fills₂.grown with ⟨-, -, same⟩ | ⟨full, -⟩
    · exact same
    · have volume : libraryVolume = 351 := rfl
      unfold SemiSpaces.free SemiSpaces.activeEnd at full
      omega

end ObjectMachine
