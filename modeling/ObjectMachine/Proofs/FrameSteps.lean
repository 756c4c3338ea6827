/-
  ObjectMachine/Proofs/FrameSteps.lean
  ====================================
  **Calls, returns and arguments** — the instructions that work on frames other than their own.

  A call opens a frame above the others that returns to the byte after the call, a return drops
  the innermost frame, and `store-arg` writes below its frame.  What each of them leaves of the
  frames below is said in terms of `Within` and `Relocated`, as for the instructions that keep to
  their own frame.
-/
import ObjectMachine.Proofs.CalmInstructions
import ObjectMachine.Proofs.StoredCode

namespace ObjectMachine

open Memory (Relocated Within)

namespace Machine

/-! ### Fetching -/

section Fetching

variable {m m' : Machine} {i : Instruction}

/-- The machine with an event in its journal. -/
def noted (m : Machine) (event : Event) : Machine :=
  { m with memory := { m.memory with journal := m.memory.journal.note event } }

/-- Reading from the code and moving past what has been read. -/
theorem withPc_reading {α : Type} (read : CodeArena → CodeAddress → Except MemoryError α)
    (width : Word) :
    Preserves (fun m' => ∃ pc, m' = m.withPc pc) (onMemory (do
      let pc := (← get).pc
      let x ← Memory.query fun y => read y.code pc
      Memory.setPc (pc.advance width)
      return x)) := by
  rintro _ ⟨pc, rfl⟩
  cases found : read m.memory.code pc with
  | ok x =>
    have asked : Memory.query (fun y => read y.code pc) (m.withPc pc).memory = .ok x _ :=
      Memory.query_ok found
    refine ⟨pc.advance width, ?_⟩
    exact congrArg endState (Lockstep.onMemory_ok ((run_get_bind _).trans (run_bind_ok asked)))
  | error e =>
    have asked : Memory.query (fun y => read y.code pc) (m.withPc pc).memory = .error e _ :=
      Memory.query_error found
    refine ⟨pc, ?_⟩
    exact congrArg endState (Lockstep.onMemory_error ((run_get_bind _).trans (run_bind_error asked)))

theorem withPc_fetchByte : Preserves (fun m' => ∃ pc, m' = m.withPc pc) (onMemory Memory.fetchByte) :=
  withPc_reading CodeArena.byteAt 1

theorem withPc_fetchWord : Preserves (fun m' => ∃ pc, m' = m.withPc pc) (onMemory Memory.fetchWord) :=
  withPc_reading CodeArena.wordAt 4

/-- Fetching moves the program counter and does nothing else. -/
theorem withPc_fetch (m : Machine) : ∃ pc, endState (fetch m) = m.withPc pc := by
  have fetched : Preserves (fun m' => ∃ pc, m' = m.withPc pc) fetch := by
    refine Preserves.get_bind fun _ => withPc_fetchByte.bind fun x => ?_
    split
    · exact Preserves.throw _
    · rename_i op _
      cases op.reads with
      | none i read =>
        rw [read]
        exact Preserves.pure i
      | one f read =>
        rw [read]
        exact withPc_fetchWord.bind fun w => Preserves.pure _
      | two f read =>
        rw [read]
        exact withPc_fetchWord.bind fun v => withPc_fetchWord.bind fun w => Preserves.pure _
  exact fetched m ⟨m.memory.pc, rfl⟩

theorem fetch_eq_ok (h : fetch m = .ok i m') : m' = m.withPc m'.memory.pc := by
  obtain ⟨pc, eq⟩ := withPc_fetch m
  rw [h] at eq
  have eq : m' = m.withPc pc := eq
  rw [eq]
  rfl

theorem advance_of_fetch {entryBase : Word} (h : fetch m = .ok i m') :
    advance entryBase m = step entryBase i (m'.noted (.executed m.memory.pc i)) := by
  unfold advance
  rw [run_get_bind, run_bind_ok h]
  rfl

end Fetching

/-! ### Opening a frame -/

section Frames

variable {m m' : Machine} {entryBase : Word} {base : Nat} {bases outer : List Nat}

/-- **Entered.**  A frame has been opened on top of the others, which returns to where the
    program was. -/
structure Entered (bases : List Nat) (m m' : Machine) : Prop where
  nested : m'.memory.stack.Nested (m.memory.stack.sp :: bases)
  bp : m'.memory.stack.bp = UInt32.ofNat m.memory.stack.sp
  returning : m'.memory.stack.bytes.word? (m.memory.stack.sp + 4) = some m.memory.pc.word
  returns : ∀ b ∈ bases, m'.memory.stack.bytes.word? (b + 4) = m.memory.stack.bytes.word? (b + 4)
  below : ∀ p, p + 4 ≤ m.memory.stack.sp → Relocated p m.memory m'.memory

theorem enter_cases (nested : m.memory.stack.Nested bases) (entry : CodeAddress) (locals : Word) :
    (∃ e, enter entry locals m = .error e m) ∨
      ∃ m', enter entry locals m = .ok () m' ∧ Entered bases m m' := by
  rcases (FrameStack.Operation.newFrame locals m.memory.pc).run_cases nested.bounded with
    ⟨s, run, effect⟩ | ⟨e, run, -⟩
  · right
    have opened : Memory.newFrame locals m.memory = .ok () { m.memory with stack := s } :=
      (run_get_bind _).trans (Memory.onStack_ok run)
    have after : m.memory.after (.newFrame locals) = { m.memory with stack := s } :=
      congrArg endState opened
    have same : ∀ p, p + 4 ≤ m.memory.stack.sp →
        s.bytes.word? p = m.memory.stack.bytes.word? p := fun p low =>
      (effect.same nested.bounded (show p + 4 ≤ m.memory.stack.sp from low)).word? 0 (by omega)
    refine ⟨_, run_bind_ok (Lockstep.onMemory_ok opened), ⟨nested.newFrame effect, ?_, ?_, ?_, ?_⟩⟩
    · cases effect
      rfl
    · cases effect with
      | newFrame room => exact (FrameStack.word?_frameBytes _ _ _ room).2
    · intro b mem
      have := nested.below b mem
      exact same (b + 4) (by omega)
    · intro p low
      have opening : Relocated p m.memory (m.memory.after (.newFrame locals)) :=
        Relocated.refl.operation _ (by rw [after]; exact same p low)
      rw [after] at opening
      exact opening.operation (.setPc entry) rfl
  · left
    have full : Memory.newFrame locals m.memory = .error e m.memory :=
      (run_get_bind _).trans (Memory.onStack_error run)
    exact ⟨_, run_bind_error (Lockstep.onMemory_error full)⟩

theorem nested_of_new {setup : Setup} (made : Machine.new setup = .ok m) :
    m.memory.stack.Nested [] := by
  obtain ⟨w, holds, reached⟩ := World.holds_new (ι := Unit) (m := fun _ => m) fun _ =>
    (show Machine.new (setup.withHeap setup.settings.heapSize) = .ok m from made)
  have shows_ := (holds.shows_ ()).stack
  have addressable := holds.valid.stack_addressable
  have bp : m.memory.stack.bp = noFrame := by
    have framed := holds.valid.framed
    rw [reached.cells] at framed
    rw [shows_.bp_eq]
    generalize w.memory.bp = bp, w.memory.bases = bases at framed
    cases framed with
    | none => rfl
    | frame _ _ cell => cases cell
  have sp : m.memory.stack.sp = 0 := by
    rw [shows_.sp_eq, reached.cells]
    rfl
  refine ⟨⟨?_, by omega, fun open_ => absurd bp open_⟩, by omega, ?_, nofun⟩
  · rw [shows_.size_eq]
    exact addressable
  · rw [bp]
    exact .none

theorem bp_of_nested_nil {s : FrameStack} (nested : s.Nested []) : s.bp = noFrame := by
  rcases nested.linked.innermost with ⟨none, -⟩ | ⟨_, _, -, impossible, -⟩
  · exact none
  · cases impossible

/-- The innermost frame decides where the base pointer is. -/
theorem bp_eq_of_nested {s t : FrameStack} {bases : List Nat} (hs : s.Nested bases)
    (ht : t.Nested bases) : s.bp = t.bp := by
  cases bases with
  | nil => exact (bp_of_nested_nil hs).trans (bp_of_nested_nil ht).symm
  | cons base outer =>
    exact UInt32.toNat_inj.1 ((Memory.base_eq hs).2.trans (Memory.base_eq ht).2.symm)

/-- There are words above the bookkeeping of the innermost frame. -/
theorem hasWords_of_nested {s : FrameStack} {base : Nat} {outer : List Nat}
    (nested : s.Nested (base :: outer)) {n : Nat} (words : base + 8 + 4 * n ≤ s.sp) : s.HasWords n := by
  intro _
  rw [(Memory.base_eq nested).2]
  exact words

theorem hasWords_of_nested_nil {s : FrameStack} (nested : s.Nested []) (n : Nat) : s.HasWords n :=
  fun open_ => absurd (bp_of_nested_nil nested) open_

/-! ### Calls -/

/-- What a call does before it opens the frame of the method. -/
def prepareCall (selector : Word) : Run Method := do
  let selector ← query (textConstant · selector)
  let receiver ← Memory.popRef
  let method ← query (lookup · receiver selector)
  Memory.note (.sent selector receiver method.entry)
  Memory.pushRef receiver
  return method

theorem step_call_eq (entryBase selector : Word) : step entryBase (.call selector) = (do
    let method ← prepareCall selector
    enter method.entry method.locals
    return .next) := by
  unfold step send enter prepareCall
  simp only [bind_assoc, pure_bind]

theorem calmEnd_prepareCall (selector : Word) (nested : m.memory.stack.Nested (base :: outer))
    (words : m.memory.stack.HasWords (m.demand (.call selector))) :
    CalmEnd memory base outer m.memory 0 0 (prepareCall selector m) := by
  have words : m.memory.stack.HasWords (if (textConstant m.memory selector).isOk then 1 else 0) := words
  cases found : textConstant m.memory selector with
  | error e =>
    have failed : query (textConstant · selector) m = .error e m := by
      unfold query
      dsimp only
      rw [found]
    unfold prepareCall
    rw [run_bind_error failed]
    exact ⟨.refl nested, HasWords.mono_words words (Nat.zero_le _)⟩
  | ok text =>
    rw [found] at words
    have le : ∀ k, 0 ≤ k := Nat.zero_le
    exact ((calm_query _ (le _)).bind fun _ => (calm_popRef (le _)).bind fun _ =>
      (calm_query _ (le _)).bind fun _ => (calm_note _ (le _)).bind fun _ =>
        ((calm_pushRef _ (le _)).mono (le _)).bind fun _ => .pure _ (le _)) m nested words

theorem preserves_lift {α : Type} {P : Memory → Prop} {act : Memory.Run α} (h : Preserves P act) :
    Preserves (fun m : Machine => P m.memory) (onMemory act) := by
  intro m holds
  rw [Lockstep.endState_onMemory]
  exact h m.memory holds

theorem pc_prepareCall (selector : Word) (pc : CodeAddress) :
    Preserves (fun m => m.memory.pc = pc) (prepareCall selector) := by
  have asked : ∀ {α : Type} (f : Memory → Except MachineError α),
      Preserves (fun m => m.memory.pc = pc) (query f) := by
    intro α f m holds
    unfold query
    split <;> exact holds
  have stack : ∀ {α : Type} (act : FrameStack.Run α),
      Preserves (fun x : Memory => x.pc = pc) (Memory.onStack act) := by
    intro α act x holds
    rw [Memory.stack_onStack]
    exact holds
  have popped : Preserves (fun x : Memory => x.pc = pc) Memory.popRef :=
    (stack _).bind fun _ => Preserves.pure _
  have noting : ∀ event, Preserves (fun x : Memory => x.pc = pc) (Memory.note event) :=
    fun _ _ holds => holds
  exact (asked _).bind fun text => (preserves_lift popped).bind fun receiver =>
    (asked _).bind fun method => (preserves_lift (noting _)).bind fun _ =>
      (preserves_lift (stack _)).bind fun _ => Preserves.pure method

/-- **A call** opens a frame that returns to the byte after the call. -/
theorem step_call (entryBase selector : Word) (nested : m.memory.stack.Nested (base :: outer))
    (words : m.memory.stack.HasWords (m.demand (.call selector))) :
    match step entryBase (.call selector) m with
    | .ok flow m' => flow = .next ∧ ∃ m₁, Within base outer m.memory m₁.memory ∧
        m₁.memory.pc = m.memory.pc ∧ Entered (base :: outer) m₁ m'
    | .error _ m' => Within base outer m.memory m'.memory := by
  have prepared := calmEnd_prepareCall selector nested words
  have pc := pc_prepareCall selector m.memory.pc m rfl
  rw [step_call_eq]
  cases run : prepareCall selector m with
  | error e m₁ =>
    rw [run] at prepared
    rw [run_bind_error run]
    exact prepared.1
  | ok method m₁ =>
    rw [run] at prepared pc
    rw [run_bind_ok run]
    rcases enter_cases prepared.1.nested method.entry method.locals with
      ⟨e, full⟩ | ⟨m', entered, frame⟩
    · rw [run_bind_error full]
      exact prepared.1
    · rw [run_bind_ok entered]
      exact ⟨rfl, m₁, prepared.1, pc, frame⟩

/-! ### Returns -/

/-- **Returned.**  The frame at `base` has been dropped, and what is left on the stack above its
    place is the result, if there is one. -/
structure Returned (base : Nat) (outer : List Nat) (i : Instruction) (x y : Memory) : Prop where
  nested : y.stack.Nested outer
  top : i = .ret ∧ y.stack.sp = base ∨ i = .retTop ∧ y.stack.sp = base + 4 ∧
    ∃ value, x.peekRef 0 = .ok value ∧ y.stack.bytes.word? base = some value.word
  returns : ∀ b ∈ outer, y.stack.bytes.word? (b + 4) = x.stack.bytes.word? (b + 4)
  below : ∀ p, p % 4 = 0 → p + 4 ≤ base → Relocated p x y

/-- How a run goes on after a return: it stops if no frame is left or the frame that it was
    entered with is gone, and goes on at the return address otherwise. -/
def Resumes (entryBase : Word) (base : Nat) (outer : List Nat) (m : Machine) (flow : Flow)
    (m' : Machine) : Prop :=
  if outer = [] ∨ m.memory.stack.bp = entryBase then flow = .stop
  else flow = .next ∧ m.memory.stack.bytes.word? (base + 4) = some m'.memory.pc.word

theorem leave_eq (entryBase : Word) (nested : m.memory.stack.Nested (base :: outer)) :
    ∃ flow m', leave entryBase m = .ok flow m' ∧ Returned base outer .ret m.memory m'.memory ∧
      m'.memory.stack.bytes.size = m.memory.stack.bytes.size ∧
      Resumes entryBase base outer m flow m' := by
  obtain ⟨bp, link, returnTo, s, linked, returning, run, eq, rest⟩ := nested.discardFrame_ok
  have dropped : Memory.discardFrame m.memory =
      .ok (if link = noFrame then none else some ⟨returnTo⟩) { m.memory with stack := s } :=
    Memory.onStack_ok run
  have after : m.memory.after .discardFrame = { m.memory with stack := s } :=
    congrArg endState (run_bind_ok dropped)
  have top := nested.below base List.mem_cons_self
  have fits := nested.bounded.sp_le
  have same : ∀ p, p + 4 ≤ base → s.bytes.word? p = m.memory.stack.bytes.word? p := by
    intro p low
    have wiped := Bytes.same_wipe m.memory.stack.bytes base (m.memory.stack.sp - base) p 4 (by omega)
      (Or.inl low)
    rw [eq]
    exact wiped.word? 0 (by omega)
  have lower : ∀ b ∈ outer, b + 8 ≤ base := by
    rcases nested.linked.innermost with ⟨-, none⟩ | ⟨_, _, -, frames, -, -, above⟩
    · cases none
    · cases frames
      exact above
  -- the program counter is set after the frame has been dropped
  have returned : ∀ pc, Returned base outer .ret m.memory { m.memory with stack := s, pc := pc } := by
    intro pc
    refine ⟨rest, Or.inl ⟨rfl, by rw [eq]⟩, fun b mem => ?_, fun p _ low => ?_⟩
    · have := lower b mem
      exact same (b + 4) (by omega)
    · have dropping : Relocated p m.memory (m.memory.after .discardFrame) :=
        Relocated.refl.operation _ (by rw [after]; exact same p low)
      rw [after] at dropping
      exact dropping.operation (.setPc pc) rfl
  have size : s.bytes.size = m.memory.stack.bytes.size := by
    rw [eq]
    exact Bytes.size_wipe _ _ _
  have closed : link = noFrame ↔ outer = [] := by
    have bp' : s.bp = link := by rw [eq]
    rcases rest.linked.innermost with ⟨none, empty⟩ | ⟨_, _, open_, frames, -⟩
    · rw [bp'] at none
      exact ⟨fun _ => empty, fun _ => none⟩
    · rw [bp'] at open_
      refine ⟨fun h => absurd h open_, fun h => ?_⟩
      rw [h] at frames
      cases frames
  let left : Machine := { m with memory := { m.memory with stack := s } }
  have dropped : (Memory.discardFrame : Run (Option CodeAddress)) m =
      .ok (if link = noFrame then none else some ⟨returnTo⟩) left := Lockstep.onMemory_ok dropped
  by_cases last : link = noFrame
  · rw [if_pos last] at dropped
    refine ⟨.stop, left, (run_get_bind _).trans (run_bind_ok dropped), returned _, size, ?_⟩
    unfold Resumes
    rw [if_pos (Or.inl (closed.1 last))]
  · rw [if_neg last] at dropped
    have more : outer ≠ [] := fun empty => last (closed.2 empty)
    by_cases own : m.memory.stack.bp = entryBase
    · refine ⟨.stop, left, ?_, returned _, size, ?_⟩
      · refine (run_get_bind _).trans ((run_bind_ok dropped).trans ?_)
        dsimp only
        rw [if_pos own]
        rfl
      · unfold Resumes
        rw [if_pos (Or.inr own)]
    · refine ⟨.next, left.withPc ⟨returnTo⟩, ?_, returned _, size, ?_⟩
      · refine (run_get_bind _).trans ((run_bind_ok dropped).trans ?_)
        dsimp only
        rw [if_neg own]
        rfl
      · unfold Resumes
        rw [if_neg (not_or.2 ⟨more, own⟩)]
        exact ⟨rfl, returning⟩

/-- Pushing the result of the frame that has been dropped. -/
theorem Returned.push {x y : Memory} {value : Ref} (returned : Returned base outer .ret x y)
    (room : base + 4 ≤ y.stack.bytes.size) (top : x.peekRef 0 = .ok value) :
    ∃ z, Memory.pushRef value y = .ok () z ∧ z.pc = y.pc ∧ Returned base outer .retTop x z := by
  have sp : y.stack.sp = base := by
    rcases returned.top with ⟨-, sp⟩ | ⟨impossible, -⟩
    · exact sp
    · cases impossible
  have fits : y.stack.sp + 4 ≤ y.stack.bytes.size := by rwa [sp]
  have run := FrameStack.push_eq value.word fits
  have pushed := Memory.onStack_ok run
  have after : y.after (.pushWord value.word) = { y with
      stack := ⟨y.stack.bytes.overwrite y.stack.sp value.word.bytes, y.stack.sp + 4, y.stack.bp⟩ } :=
    congrArg endState pushed
  have same : ∀ p, p + 4 ≤ base →
      (y.stack.bytes.overwrite y.stack.sp value.word.bytes).word? p = y.stack.bytes.word? p := by
    intro p low
    rw [sp]
    exact Bytes.word?_overwrite_of_apart _ _ _ _ room (Or.inl low)
  refine ⟨_, pushed, rfl, ⟨?_, Or.inr ⟨rfl, ?_, value, top, ?_⟩, fun b mem => ?_,
    fun p aligned low => ?_⟩⟩
  · have step : ((FrameStack.Operation.push value.word).after y.stack).Nested outer :=
      returned.nested.step rfl
    have run : (FrameStack.Operation.push value.word).run y.stack = .ok () _ := run
    unfold FrameStack.Operation.after at step
    rwa [run] at step
  · dsimp only
    rw [sp]
  · dsimp only
    rw [sp]
    exact Bytes.word?_overwrite_self _ _ _ room
  · have := returned.nested.below b mem
    exact (same (b + 4) (by omega)).trans (returned.returns b mem)
  · have pushing : Relocated p y (y.after (.pushWord value.word)) :=
      Relocated.refl.operation _ (by rw [after]; exact same p low)
    rw [after] at pushing
    exact (returned.below p aligned low).trans pushing

/-- **A return** gives the frame back. -/
theorem step_return (entryBase : Word) {i : Instruction} (returns : i = .ret ∨ i = .retTop)
    (nested : m.memory.stack.Nested (base :: outer)) (words : m.memory.stack.HasWords (m.demand i)) :
    ∃ flow m', step entryBase i m = .ok flow m' ∧ Returned base outer i m.memory m'.memory ∧
      Resumes entryBase base outer m flow m' := by
  rcases returns with rfl | rfl
  · obtain ⟨flow, m', run, returned, -, resumes⟩ := leave_eq entryBase nested
    exact ⟨flow, m', run, returned, resumes⟩
  · obtain ⟨w, top, -, popped⟩ := Memory.popWord_eq (k := 0) nested words
    let m₁ : Machine := { m with memory := { m.memory with
      stack := ⟨m.memory.stack.bytes, m.memory.stack.sp - 4, m.memory.stack.bp⟩ } }
    have popped : (Memory.popRef : Run Ref) m = .ok ⟨w⟩ m₁ :=
      Lockstep.onMemory_ok (run_bind_ok popped)
    have within : Within base outer m.memory m₁.memory := by
      have calm := calm_popRef (Nat.zero_le 0) m nested words
      rw [show onMemory Memory.popRef m = _ from popped] at calm
      exact calm.1
    obtain ⟨flow, m₂, run, returned, size, resumes⟩ := leave_eq entryBase within.nested
    have returned : Returned base outer .ret m.memory m₂.memory :=
      { returned with
        returns := fun b mem => (returned.returns b mem).trans
          (within.returns b (List.mem_cons_of_mem _ mem))
        below := fun p aligned low => (within.below p aligned low).trans (returned.below p aligned low)
        top := Or.inl (returned.top.resolve_right fun ⟨impossible, _⟩ => by cases impossible) }
    have room : base + 4 ≤ m₂.memory.stack.bytes.size := by
      have below := within.nested.below base List.mem_cons_self
      have fits := within.nested.bounded.sp_le
      omega
    obtain ⟨x, pushed, pc, result⟩ := returned.push room top
    refine ⟨flow, { m₂ with memory := x }, ?_, result, ?_⟩
    · refine (run_bind_ok popped).trans ((run_bind_ok run).trans ?_)
      exact run_bind_ok (Lockstep.onMemory_ok pushed)
    · unfold Resumes at resumes ⊢
      dsimp only
      rw [pc]
      exact resumes

/-! ### Arguments -/

/-- **Setting an argument** changes nothing else below the frame. -/
theorem step_storeArg (entryBase index address : Word) (nested : m.memory.stack.Nested (base :: outer))
    (careful : (FrameStack.Operation.setArg index ⟨address⟩).disciplined m.memory.stack = true) :
    Gives (· = .next) (step entryBase (.storeArg index address)) ∧
      let m' := endState (step entryBase (.storeArg index address) m)
      m'.memory.stack.Nested (base :: outer) ∧
      (∀ b ∈ base :: outer,
        m'.memory.stack.bytes.word? (b + 4) = m.memory.stack.bytes.word? (b + 4)) ∧
      ∀ p, p % 4 = 0 → p + 4 ≤ base → m.memory.stack.argOffset index ≠ .ok p →
        Relocated p m.memory m'.memory := by
  refine ⟨gives_bind fun _ => gives_pure rfl, ?_⟩
  have ends : (endState (step entryBase (.storeArg index address) m)).memory =
      m.memory.after (.setArg index ⟨address⟩) := by
    cases run : Memory.setArg index ⟨address⟩ m.memory with
    | ok a x =>
      have stepped : step entryBase (.storeArg index address) m = .ok .next { m with memory := x } :=
        run_bind_ok (Lockstep.onMemory_ok run)
      rw [stepped]
      exact (congrArg endState run).symm
    | error e x =>
      have stepped : step entryBase (.storeArg index address) m =
          .error (.memory e) { m with memory := x } := run_bind_error (Lockstep.onMemory_error run)
      rw [stepped]
      exact (congrArg endState run).symm
  have stack : (m.memory.after (.setArg index ⟨address⟩)).stack =
      (FrameStack.Operation.setArg index ⟨address⟩).after m.memory.stack :=
    Memory.stack_after_onStack rfl m.memory
  dsimp only
  rw [ends, stack]
  refine ⟨nested.step careful, fun b mem => ?_, fun p aligned low other => ?_⟩
  · exact (FrameStack.Operation.same_after nested.bounded
      (nested.spares_frame careful mem nofun)).word? 4 (by omega)
  · have nested : m.memory.stack.Nested ([] ++ base :: outer) := nested
    have same := nested.word_below careful nofun aligned low fun reaches => other reaches.2
    exact Relocated.refl.operation _ (by rw [stack, same])

end Frames

end Machine

end ObjectMachine
