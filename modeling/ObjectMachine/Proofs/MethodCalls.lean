/-
  ObjectMachine/Proofs/MethodCalls.lean
  =====================================
  **Inside a call** — the machine between a call and the return from it.

  A call opens a frame above everything that is on the stack, and what the method does before it
  allocates changes the words above the frame only.  `InCall` is what stays so from one
  instruction to the next; the operands are listed from the bottom to the top, and what lies above
  them is left open.
-/
import ObjectMachine.Proofs.Operands

namespace ObjectMachine

open ObjectGraph

/-! ### The stack -/

namespace FrameStack

/-- **Inside a call.**  On top of a stack there is a frame without locals that returns to a known
    address, and operands above it. -/
structure InCall (s : FrameStack) (past : CodeAddress) (operands : List Word) (t : FrameStack) :
    Prop where
  size : t.bytes.size = s.bytes.size
  same : ∀ p n, p + n ≤ s.sp → t.bytes.Same p s.bytes p n
  bp : t.bp = UInt32.ofNat s.sp
  link : t.bytes.word? s.sp = some s.bp
  returnTo : t.bytes.word? (s.sp + 4) = some past.word
  sp : t.sp = s.sp + 8 + 4 * operands.length
  fits : t.sp ≤ t.bytes.size
  words : ∀ (i : Nat) w, operands[i]? = some w → t.bytes.word? (s.sp + 8 + 4 * i) = some w

/-- **The frame is gone**, and what was below it is on top again. -/
structure Closed (t : FrameStack) (base : Nat) (outer : List Nat) (s : FrameStack) : Prop where
  nested : s.Nested outer
  sp : s.sp = base
  size : s.bytes.size = t.bytes.size
  same : ∀ p n, p + n ≤ base → s.bytes.Same p t.bytes p n

/-- An operand of a call, by its number; the receiver has number 0. -/
def Argument (s : FrameStack) (index w : Word) : Prop :=
  4 * (1 + index.toNat) ≤ s.sp ∧ s.bytes.word? (s.sp - 4 * (1 + index.toNat)) = some w

variable {s t : FrameStack} {past : CodeAddress} {operands : List Word} {bases : List Nat} {w : Word}

theorem inCall_opened (room : s.sp + 8 ≤ s.bytes.size) : s.InCall past [] (s.opened past) := by
  have length : (frameBytes s.bp past 0).length = 8 := by simp [frameBytes]
  have size : (s.opened past).bytes.size = s.bytes.size := Bytes.size_overwrite _ _ _
  obtain ⟨link, returnTo⟩ := word?_frameBytes s.bp past 0 room
  refine ⟨size, ?_, rfl, link, returnTo, rfl, ?_, by simp⟩
  · intro p n below
    exact Bytes.same_overwrite _ _ _ p n (by omega) (Or.inl below)
  · rw [size]
    exact room

namespace InCall

variable (inCall : s.InCall past operands t)
include inCall

/-- An operand is pushed. -/
theorem pushed (room : t.sp + 4 ≤ t.bytes.size) (w : Word) :
    s.InCall past (operands ++ [w]) (t.pushed w) := by
  have sp := inCall.sp
  have size : (t.pushed w).bytes.size = t.bytes.size := Bytes.size_overwrite _ _ _
  have kept : ∀ p, p + 4 ≤ t.sp → (t.pushed w).bytes.word? p = t.bytes.word? p :=
    fun p below => Bytes.word?_overwrite_of_apart _ _ _ _ room (Or.inl below)
  refine
    { size := size.trans inCall.size
      same := ?same
      bp := inCall.bp
      link := (kept _ (by omega)).trans inCall.link
      returnTo := (kept _ (by omega)).trans inCall.returnTo
      sp := ?sp
      fits := size ▸ room
      words := ?words }
  case same =>
    intro p n below
    refine Bytes.Same.trans ?_ (inCall.same p n below)
    exact Bytes.same_overwrite _ _ _ p n room (Or.inl (by omega))
  case sp =>
    rw [List.length_append, List.length_singleton]
    change t.sp + 4 = _
    omega
  case words =>
    intro i v listed
    by_cases old : i < operands.length
    · rw [List.getElem?_append_left old] at listed
      exact (kept _ (by omega)).trans (inCall.words i v listed)
    · rw [List.getElem?_append_right (Nat.not_lt.1 old), List.getElem?_singleton] at listed
      split at listed
      · cases listed
        have top : s.sp + 8 + 4 * i = t.sp := by omega
        rw [top]
        exact Bytes.word?_overwrite_self _ _ _ room
      · cases listed

theorem bp_ne_noFrame (bounded : s.Bounded) : t.bp ≠ noFrame := by
  intro none
  have base : t.bp.toNat = wordLimit - 1 := by rw [none]; rfl
  rw [inCall.bp, bounded.toNat_sp] at base
  have small := bounded.addressable
  have fits := bounded.sp_le
  omega

/-- The frames of the caller are below. -/
theorem nested (nested : s.Nested bases) : t.Nested (s.sp :: bases) := by
  have sp := inCall.sp
  have fits := inCall.fits
  have size := inCall.size
  have aligned := nested.aligned
  have small := nested.bounded.addressable
  have base : t.bp.toNat = s.sp := by rw [inCall.bp, nested.bounded.toNat_sp]
  have open_ : t.bp ≠ noFrame := inCall.bp_ne_noFrame nested.bounded
  have links : Linked t.bytes s.bp bases := by
    refine nested.linked.congr fun b mem => ?_
    have := nested.below b mem
    exact (inCall.same b 4 (by omega)).word? 0 (by omega)
  have frame : Linked t.bytes t.bp (t.bp.toNat :: bases) := by
    refine .frame open_ ?_ ?_ links ?_
    · rw [base]
      exact aligned
    · rw [base]
      exact inCall.link
    · rw [base]
      exact nested.below
  refine ⟨⟨by omega, fits, fun _ => by omega⟩, by omega, base ▸ frame, ?_⟩
  intro b mem
  rcases List.mem_cons.1 mem with rfl | mem
  · omega
  · have := nested.below b mem
    omega

/-- Where an argument is. -/
theorem argOffset_eq (bounded : s.Bounded) {index : Word} (deep : 4 * (1 + index.toNat) ≤ s.sp) :
    t.argOffset index = .ok (s.sp - 4 * (1 + index.toNat)) := by
  have base : t.bp.toNat = s.sp := by rw [inCall.bp, bounded.toNat_sp]
  have fits := bounded.sp_le
  have size := inCall.size
  unfold argOffset
  dsimp only
  rw [if_neg (inCall.bp_ne_noFrame bounded), base, if_neg (by omega), if_neg (by omega)]

/-- The frame cannot be left where it lies over the bookkeeping of the caller's. -/
theorem discardFrame_corrupt (bounded : s.Bounded) (open_ : s.bp ≠ noFrame)
    (overlap : s.sp < s.bp.toNat + 8) : discardFrame t = .error (.corruptFrame t.bp) t := by
  have base : t.bp.toNat = s.sp := by rw [inCall.bp, bounded.toNat_sp]
  have sp := inCall.sp
  have frame : t.bp ≠ noFrame := inCall.bp_ne_noFrame bounded
  have linked : t.bytes.word? t.bp.toNat = some s.bp := base ▸ inCall.link
  unfold discardFrame
  rw [run_get_bind, if_neg frame]
  dsimp only
  rw [run_get_bind, if_neg (by omega), run_bind_ok (load_eq linked), if_pos ⟨open_, by omega⟩]
  rfl

end InCall

/-- An operand is popped. -/
theorem InCall.dropped (inCall : s.InCall past (operands ++ [w]) t) :
    t.bytes.word? (t.sp - 4) = some w ∧ 4 ≤ t.sp ∧ s.InCall past operands t.dropped := by
  have sp := inCall.sp
  have fits := inCall.fits
  rw [List.length_append, List.length_singleton] at sp
  have top : t.sp - 4 = s.sp + 8 + 4 * operands.length := by omega
  refine ⟨?_, by omega, { inCall with sp := top, fits := (Nat.sub_le _ _).trans fits, words := ?_ }⟩
  · rw [top]
    refine inCall.words _ w ?_
    rw [List.getElem?_append_right (Nat.le_refl _), Nat.sub_self]
    rfl
  · intro i v listed
    refine inCall.words i v ?_
    rw [List.getElem?_append_left (List.getElem?_eq_some_iff.1 listed).1]
    exact listed

end FrameStack

/-! ### Runs -/

namespace Machine

open Memory

/-- **Part of a run**: these instructions are carried out, and the run goes on after them. -/
inductive Runs (entryBase : Word) : List Instruction → Machine → Machine → Prop where
  | done {m : Machine} : Runs entryBase [] m m
  | step {i : Instruction} {is : List Instruction} {m m₁ m₂ m' : Machine}
      (fetched : fetch m = .ok i m₁) (advanced : advance entryBase m = .ok .next m₂)
      (rest : Runs entryBase is m₂ m') : Runs entryBase (i :: is) m m'

/-- **A run that breaks off**: one of these instructions fails, and those before it do not. -/
inductive Breaks (entryBase : Word) (e : MachineError) : List Instruction → Machine → Prop where
  | here {i : Instruction} {is : List Instruction} {m m₁ m' : Machine}
      (fetched : fetch m = .ok i m₁) (failed : advance entryBase m = .error e m') :
      Breaks entryBase e (i :: is) m
  | later {i : Instruction} {is : List Instruction} {m m₁ m₂ : Machine}
      (fetched : fetch m = .ok i m₁) (advanced : advance entryBase m = .ok .next m₂)
      (rest : Breaks entryBase e is m₂) : Breaks entryBase e (i :: is) m

section Runs

variable {entryBase : Word} {is js : List Instruction} {m m₁ m' : Machine} {e : MachineError}

theorem Runs.trans (first : Runs entryBase is m m₁) (second : Runs entryBase js m₁ m') :
    Runs entryBase (is ++ js) m m' := by
  induction first with
  | done => exact second
  | step fetched advanced _ ih => exact .step fetched advanced (ih second)

theorem Runs.breaks (first : Runs entryBase is m m₁) (second : Breaks entryBase e js m₁) :
    Breaks entryBase e (is ++ js) m := by
  induction first with
  | done => exact second
  | step fetched advanced _ ih => exact .later fetched advanced (ih second)

/-- A part of a run is what the run begins with. -/
theorem Runs.runFrom_eq (runs : Runs entryBase is m m') (fuel steps : Nat) :
    runFrom entryBase (fuel + is.length) steps m = runFrom entryBase fuel (steps + is.length) m' := by
  induction runs generalizing steps with
  | done => rfl
  | @step i is m m₁ m₂ m' _ advanced _ ih =>
    have once : runFrom entryBase (fuel + is.length + 1) steps m =
        runFrom entryBase (fuel + is.length) (steps + 1) m₂ := run_bind_ok advanced
    rw [List.length_cons, ← Nat.add_assoc, once, ih]
    congr 1
    omega

theorem Breaks.runFrom_eq (breaks : Breaks entryBase e is m) (fuel steps : Nat) :
    ∃ m', runFrom entryBase (fuel + is.length) steps m = .error e m' := by
  induction breaks generalizing steps with
  | here _ failed => exact ⟨_, run_bind_error failed⟩
  | @later i is m m₁ m₂ _ advanced _ ih =>
    obtain ⟨m', run⟩ := ih (steps + 1)
    exact ⟨m', (run_bind_ok advanced).trans run⟩

end Runs

/-! ### The machine -/

/-- **Inside a call.**  The machine is as it was at the call, but for its stack, and has this code
    before it. -/
structure InCall (m : Machine) (past : CodeAddress) (operands : List Word) (code : List Instruction)
    (q : Machine) : Prop where
  stack : m.memory.stack.InCall past operands q.memory.stack
  same : ∃ pc journal,
    q = { m with memory := { m.memory with stack := q.memory.stack, pc := pc, journal := journal } }
  unread : ∃ more, q.unread = Instruction.encodeAll code ++ more

variable {m q : Machine} {past : CodeAddress} {operands : List Word} {code : List Instruction}
  {i : Instruction} {w entryBase : Word}

namespace InCall

theorem exists_eq (inCall : m.InCall past operands code q) : ∃ t pc journal,
    q = { m with memory := { m.memory with stack := t, pc := pc, journal := journal } } ∧
      m.memory.stack.InCall past operands t := by
  obtain ⟨pc, journal, same⟩ := inCall.same
  exact ⟨_, pc, journal, same, inCall.stack⟩

/-- The next instruction is fetched. -/
theorem advance_eq (inCall : m.InCall past operands (i :: code) q)
    (small : m.memory.code.bytes.size < wordLimit) (entryBase : Word) :
    ∃ q₁ q₂, fetch q = .ok i q₁ ∧ advance entryBase q = step entryBase i q₂ ∧
      m.InCall past operands code q₂ := by
  obtain ⟨pc, journal, same⟩ := inCall.same
  obtain ⟨more, unread⟩ := inCall.unread
  have small : q.memory.code.bytes.size < wordLimit := by
    rw [same]
    exact small
  obtain ⟨pc', fetched, rest⟩ := fetch_eq small (unread.trans (List.append_assoc _ _ _))
  refine ⟨_, _, fetched, advance_of_fetch fetched, ⟨inCall.stack, ?_, more, rest⟩⟩
  refine ⟨pc', q.memory.journal.note (.executed q.memory.pc i), ?_⟩
  rw [same]
  rfl

section Operands

/-- Whatever is on the stack, the code is the same. -/
theorem withStack (inCall : m.InCall past operands code q) {others : List Word} {t : FrameStack}
    (stack : m.memory.stack.InCall past others t) :
    m.InCall past others code { q with memory := { q.memory with stack := t } } := by
  obtain ⟨pc, journal, same⟩ := inCall.same
  refine ⟨stack, ⟨pc, journal, ?_⟩, inCall.unread⟩
  rw [same]

theorem noted (inCall : m.InCall past operands code q) (event : Event) :
    m.InCall past operands code (q.noted event) := by
  obtain ⟨pc, journal, same⟩ := inCall.same
  refine ⟨inCall.stack, ⟨pc, journal.note event, ?_⟩, inCall.unread⟩
  rw [same]
  rfl

theorem pushRef_ok (inCall : m.InCall past operands code q)
    (room : m.memory.stack.sp + 8 + 4 * operands.length + 4 ≤ m.memory.stack.bytes.size) (r : Ref) :
    ∃ q', (pushRef r : Run Unit) q = .ok () q' ∧ m.InCall past (operands ++ [r.word]) code q' := by
  have room : q.memory.stack.sp + 4 ≤ q.memory.stack.bytes.size := by
    rw [inCall.stack.sp, inCall.stack.size]
    exact room
  exact ⟨_, Lockstep.onMemory_ok (Memory.pushRef_eq room), inCall.withStack (inCall.stack.pushed room _)⟩

theorem pushRef_full (inCall : m.InCall past operands code q)
    (full : m.memory.stack.bytes.size < m.memory.stack.sp + 8 + 4 * operands.length + 4) (r : Ref) :
    (pushRef r : Run Unit) q = .error (.memory .stackOverflow) q := by
  have full : q.memory.stack.bytes.size < q.memory.stack.sp + 4 := by
    rw [inCall.stack.sp, inCall.stack.size]
    exact full
  exact Lockstep.onMemory_error (Memory.onStack_error (FrameStack.push_overflow r.word full))

theorem popWord_ok (inCall : m.InCall past (operands ++ [w]) code q) :
    ∃ q', (popWord : Run Word) q = .ok w q' ∧ m.InCall past operands code q' := by
  obtain ⟨word, some_, dropped⟩ := inCall.stack.dropped
  exact ⟨_, Lockstep.onMemory_ok (Memory.onStack_ok (FrameStack.pop_eq some_ word)),
    inCall.withStack dropped⟩

theorem popRef_ok (inCall : m.InCall past (operands ++ [w]) code q) :
    ∃ q', (popRef : Run Ref) q = .ok ⟨w⟩ q' ∧ m.InCall past operands code q' := by
  obtain ⟨word, some_, dropped⟩ := inCall.stack.dropped
  exact ⟨_, Lockstep.onMemory_ok (Memory.popRef_eq some_ word), inCall.withStack dropped⟩

end Operands

/-! ### Arguments -/

section Arguments

variable {index : Word} {words : List Word} {indices : List Word} (bounded : m.memory.stack.Bounded)
  (small : m.memory.code.bytes.size < wordLimit)

include bounded in
theorem arg_ok (inCall : m.InCall past operands code q) (argument : m.memory.stack.Argument index w) :
    (arg index : Run Ref) q = .ok ⟨w⟩ q := by
  obtain ⟨deep, word⟩ := argument
  have offset := inCall.stack.argOffset_eq bounded deep
  have low : m.memory.stack.sp - 4 * (1 + index.toNat) + 4 ≤ m.memory.stack.sp := by omega
  have word := ((inCall.stack.same _ 4 low).word? 0 (by omega)).trans word
  have found : FrameStack.offsetBy (·.argOffset index) q.memory.stack =
      .ok (m.memory.stack.sp - 4 * (1 + index.toNat)) q.memory.stack := by
    unfold FrameStack.offsetBy
    dsimp only
    rw [offset]
  have loaded : FrameStack.arg index q.memory.stack = .ok ⟨w⟩ q.memory.stack :=
    (run_bind_ok found).trans (run_bind_ok (FrameStack.load_eq word))
  exact Lockstep.onMemory_ok (Memory.onStack_ok loaded)

include bounded small

/-- **Arguments become operands**, if there is room for all of them. -/
theorem runs_loads (inCall : m.InCall past operands (indices.map .loadArg ++ code) q)
    (arguments : List.Forall₂ m.memory.stack.Argument indices words)
    (room : m.memory.stack.sp + 8 + 4 * (operands.length + indices.length) ≤ m.memory.stack.bytes.size)
    (entryBase : Word) :
    ∃ q', Runs entryBase (indices.map .loadArg) q q' ∧ m.InCall past (operands ++ words) code q' := by
  induction arguments generalizing q operands with
  | nil => exact ⟨q, .done, (List.append_nil operands).symm ▸ inCall⟩
  | @cons index w indices words argument _ ih =>
    rw [List.length_cons] at room
    obtain ⟨q₁, q₂, fetched, advanced, inCall₂⟩ := inCall.advance_eq small entryBase
    obtain ⟨q₃, pushed, inCall₃⟩ := inCall₂.pushRef_ok (by omega) ⟨w⟩
    have step : step entryBase (.loadArg index) q₂ = .ok .next q₃ :=
      (run_bind_ok (inCall₂.arg_ok bounded argument)).trans (run_bind_ok pushed)
    obtain ⟨q', runs, last⟩ := ih inCall₃ (by rw [List.length_append, List.length_singleton]; omega)
    rw [List.append_assoc] at last
    exact ⟨q', .step fetched (advanced.trans step) runs, last⟩

/-- **There is no room for the arguments.** -/
theorem breaks_loads (inCall : m.InCall past operands (indices.map .loadArg ++ code) q)
    (arguments : List.Forall₂ m.memory.stack.Argument indices words)
    (full : m.memory.stack.bytes.size < m.memory.stack.sp + 8 + 4 * (operands.length + indices.length))
    (entryBase : Word) :
    Breaks entryBase (.memory .stackOverflow) (indices.map .loadArg ++ code) q := by
  induction arguments generalizing q operands with
  | nil =>
    have := inCall.stack.fits
    rw [inCall.stack.sp, inCall.stack.size] at this
    rw [List.length_nil] at full
    omega
  | @cons index w indices words argument _ ih =>
    rw [List.length_cons] at full
    obtain ⟨q₁, q₂, fetched, advanced, inCall₂⟩ := inCall.advance_eq small entryBase
    by_cases room : m.memory.stack.sp + 8 + 4 * operands.length + 4 ≤ m.memory.stack.bytes.size
    · obtain ⟨q₃, pushed, inCall₃⟩ := inCall₂.pushRef_ok room ⟨w⟩
      have step : step entryBase (.loadArg index) q₂ = .ok .next q₃ :=
        (run_bind_ok (inCall₂.arg_ok bounded argument)).trans (run_bind_ok pushed)
      refine .later fetched (advanced.trans step) (ih inCall₃ ?_)
      rw [List.length_append, List.length_singleton]
      omega
    · have step : step entryBase (.loadArg index) q₂ = .error (.memory .stackOverflow) q₂ :=
        (run_bind_ok (inCall₂.arg_ok bounded argument)).trans
          (run_bind_error (inCall₂.pushRef_full (Nat.not_le.1 room) ⟨w⟩))
      exact .here fetched (advanced.trans step)

end Arguments

end InCall

/-! ### The call -/

/-- Neither the stack nor the code matters for what a receiver answers with. -/
theorem lookup_with (m : Memory) (s : FrameStack) (pc : CodeAddress) (journal : Journal) (receiver : Ref)
    (selector : String) :
    lookup { m with stack := s, pc := pc, journal := journal } receiver selector =
      lookup m receiver selector := by
  have own : ∀ c, ownMethod { m with stack := s, pc := pc, journal := journal } selector c =
      ownMethod m selector c := by
    intro c
    have listed : ∀ words, findMethod { m with stack := s, pc := pc, journal := journal } selector words =
        findMethod m selector words :=
      @findMethod_congr m { m with stack := s, pc := pc, journal := journal } rfl selector
    unfold ownMethod
    simp only [listed]
    rfl
  have inherited : ∀ budget a,
      inheritedMethod { m with stack := s, pc := pc, journal := journal } selector budget a =
        inheritedMethod m selector budget a := by
    intro budget
    induction budget with
    | zero => exact fun a => rfl
    | succ budget ih =>
      intro a
      unfold inheritedMethod
      simp only [own, ih]
      rfl
  unfold lookup
  simp only [inherited]
  rfl

section Call

variable {m₁ : Machine} {k : Word} {selector : String} {receiver : Ref} {method : Method}
  (fetched : fetch m = .ok (.call k) m₁) (constant : textConstant m.memory k = .ok selector)
  (top : m.memory.peekRef 0 = .ok receiver) (found : lookup m.memory receiver selector = .ok method)

include fetched constant top found

/-- What a call does before it opens the frame leaves the stack as it is. -/
theorem exists_prepared (bounded : m.memory.stack.Bounded) : ∃ p journal,
    prepareCall k (m₁.noted (.executed m.memory.pc (.call k))) = .ok method p ∧
      p = { m with memory := { m.memory with pc := m₁.memory.pc, journal := journal } } := by
  obtain ⟨some_, word⟩ := word_of_peekRef top
  have moved := fetch_eq_ok fetched
  let p : Machine := { m with memory := { m.memory with
    pc := m₁.memory.pc
    journal := m.memory.journal.note (.executed m.memory.pc (.call k)) } }
  have start : m₁.noted (.executed m.memory.pc (.call k)) = p := by
    rw [moved]
    rfl
  rw [start]
  have asked : query (textConstant · k) p = .ok selector p := Machine.query_ok constant
  let dropped : Machine := { p with memory := p.memory.popped }
  have popped : (popRef : Run Ref) p = .ok receiver dropped :=
    Lockstep.onMemory_ok (Memory.popRef_eq some_ word)
  have answered : query (lookup · receiver selector) dropped = .ok method dropped :=
    Machine.query_ok ((lookup_with m.memory _ _ _ receiver selector).trans found)
  have same : m.memory.stack.dropped.pushed receiver.word = m.memory.stack := by
    have sp : m.memory.stack.sp - 4 + 4 = m.memory.stack.sp := Nat.sub_add_cancel some_
    unfold FrameStack.pushed FrameStack.dropped
    dsimp only
    rw [Bytes.overwrite_word_self word, sp]
  have room : dropped.memory.stack.sp + 4 ≤ dropped.memory.stack.bytes.size := by
    have := bounded.sp_le
    change m.memory.stack.sp - 4 + 4 ≤ m.memory.stack.bytes.size
    omega
  let journal := p.memory.journal.note (.sent selector receiver method.entry)
  have pushed : (pushRef receiver : Run Unit) (dropped.noted (.sent selector receiver method.entry)) =
      .ok () { p with memory := { p.memory with journal := journal } } := by
    have pushed : pushRef receiver (dropped.noted (.sent selector receiver method.entry)).memory = _ :=
      Memory.pushRef_eq room
    refine (Lockstep.onMemory_ok pushed).trans ?_
    exact congrArg (fun s => EStateM.Result.ok () { p with memory := { p.memory with
      stack := s, journal := journal } }) same
  refine ⟨_, journal, ?_, rfl⟩
  refine (run_bind_ok asked).trans ((run_bind_ok popped).trans ((run_bind_ok answered).trans ?_))
  exact (run_bind_ok rfl).trans (run_bind_ok pushed)

variable (locals : method.locals = 0) (bounded : m.memory.stack.Bounded)

include locals bounded

/-- **A call** leads to the first instruction of the method. -/
theorem advance_call (stored : ∃ more, m.memory.code.bytes.toList.drop method.entry.word.toNat =
      Instruction.encodeAll code ++ more)
    (room : m.memory.stack.sp + 8 ≤ m.memory.stack.bytes.size) (entryBase : Word) :
    ∃ q, advance entryBase m = .ok .next q ∧ m.InCall m₁.memory.pc [] code q := by
  obtain ⟨p, journal, prepared, rfl⟩ := exists_prepared fetched constant top found bounded
  refine ⟨{ m with memory := { m.memory with
      stack := m.memory.stack.opened m₁.memory.pc
      pc := method.entry
      journal := journal } }, ?_, ⟨FrameStack.inCall_opened room, ⟨_, _, rfl⟩, stored⟩⟩
  rw [advance_of_fetch fetched, step_call_eq, run_bind_ok prepared, locals]
  exact run_bind_ok (enter_eq method.entry room)

/-- **A call without room for the frame.** -/
theorem advance_call_full (full : m.memory.stack.bytes.size < m.memory.stack.sp + 8) (entryBase : Word) :
    ∃ m', advance entryBase m = .error (.memory .stackOverflow) m' := by
  obtain ⟨p, journal, prepared, rfl⟩ := exists_prepared fetched constant top found bounded
  have framed : newFrame 0 { m.memory with pc := m₁.memory.pc, journal := journal } =
      .error .stackOverflow _ :=
    (run_get_bind _).trans (Memory.onStack_error (FrameStack.newFrame_overflow 0 m₁.memory.pc full))
  rw [advance_of_fetch fetched, step_call_eq, run_bind_ok prepared, locals]
  exact ⟨_, run_bind_error (run_bind_error (Lockstep.onMemory_error framed))⟩

end Call

/-! ### The return -/

theorem leave_ok {base : Nat} {outer : List Nat} (nested : q.memory.stack.Nested (base :: outer))
    (open_ : outer ≠ []) (other : q.memory.stack.bp ≠ entryBase)
    (returnTo : q.memory.stack.bytes.word? (base + 4) = some past.word) :
    ∃ s, leave entryBase q = .ok .next { q with memory := { q.memory with stack := s, pc := past } } ∧
      q.memory.stack.Closed base outer s := by
  obtain ⟨bp, link, address, s, linked, returning, run, eq, rest⟩ := nested.discardFrame_ok
  obtain rfl : address = past.word := Option.some.inj (returning.symm.trans returnTo)
  have more : link ≠ noFrame := by
    rcases rest.linked.innermost with ⟨-, none⟩ | ⟨_, _, some_, -⟩
    · exact absurd none open_
    · rw [eq] at some_
      exact some_
  have top := nested.below base List.mem_cons_self
  have fits := nested.bounded.sp_le
  rw [if_neg more] at run
  refine ⟨s, ?_, rest, by rw [eq], by rw [eq]; exact Bytes.size_wipe _ _ _, ?_⟩
  · have discarded : (discardFrame : Run (Option CodeAddress)) q = .ok (some past) _ :=
      Lockstep.onMemory_ok (Memory.onStack_ok run)
    refine (run_get_bind _).trans ((run_bind_ok discarded).trans ?_)
    dsimp only
    rw [if_neg other]
    rfl
  · intro p n below
    rw [eq]
    exact Bytes.same_wipe _ _ _ p n (by omega) (Or.inl below)

/-- **A return with a result.** -/
theorem step_retTop_ok {base : Nat} {outer : List Nat} {r : Ref}
    (nested : q.memory.stack.Nested (base :: outer)) (open_ : outer ≠ [])
    (other : q.memory.stack.bp ≠ entryBase) (sp : q.memory.stack.sp = base + 12)
    (returnTo : q.memory.stack.bytes.word? (base + 4) = some past.word)
    (result : q.memory.stack.bytes.word? (base + 8) = some r.word) :
    ∃ s, step entryBase .retTop q =
        .ok .next { q with memory := { q.memory with stack := s.pushed r.word, pc := past } } ∧
      q.memory.stack.Closed base outer s := by
  have top : q.memory.stack.sp - 4 = base + 8 := by omega
  have popped : (popRef : Run Ref) q = .ok r { q with memory := q.memory.popped } :=
    Lockstep.onMemory_ok (Memory.popRef_eq (by omega) (top ▸ result))
  have nested' : q.memory.popped.stack.Nested (base :: outer) := by
    refine nested.dropped (by omega) fun b mem => ?_
    have inner := nested.below base List.mem_cons_self
    rcases List.mem_cons.1 mem with rfl | lower
    · omega
    · rcases nested.linked.innermost with ⟨-, none⟩ | ⟨_, _, -, frames, -, -, above⟩
      · cases none
      · cases frames
        have := above b lower
        omega
  obtain ⟨s, left, closed⟩ :=
    @leave_ok { q with memory := q.memory.popped } past entryBase base outer nested' open_ other returnTo
  refine ⟨s, ?_, { closed with }⟩
  have room : s.sp + 4 ≤ s.bytes.size := by
    have fits := nested.bounded.sp_le
    rw [closed.sp, closed.size]
    change base + 4 ≤ q.memory.stack.bytes.size
    omega
  have pushed : pushRef r { q.memory with stack := s, pc := past } = _ := Memory.pushRef_eq room
  exact (run_bind_ok popped).trans ((run_bind_ok left).trans
    (run_bind_ok (Lockstep.onMemory_ok pushed)))

/-- **A return that fails**: the frame lies over the bookkeeping of the caller's. -/
theorem InCall.retTop_corrupt (inCall : m.InCall past [w] code q) (bounded : m.memory.stack.Bounded)
    (open_ : m.memory.stack.bp ≠ noFrame) (overlap : m.memory.stack.sp < m.memory.stack.bp.toNat + 8)
    (entryBase : Word) :
    ∃ q', step entryBase .retTop q =
      .error (.memory (.corruptFrame (UInt32.ofNat m.memory.stack.sp))) q' := by
  have one : m.InCall past ([] ++ [w]) code q := inCall
  obtain ⟨q', popped, inCall'⟩ := one.popRef_ok
  have discarded := inCall'.stack.discardFrame_corrupt bounded open_ overlap
  rw [inCall'.stack.bp] at discarded
  have left : leave entryBase q' = .error (.memory (.corruptFrame (UInt32.ofNat m.memory.stack.sp))) q' :=
    (run_get_bind _).trans (run_bind_error (Lockstep.onMemory_error (Memory.onStack_error discarded)))
  exact ⟨q', (run_bind_ok popped).trans (run_bind_error left)⟩

end Machine

end ObjectMachine
