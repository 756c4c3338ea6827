/-
  ObjectMachine/Proofs/Relocation.lean
  ====================================
  **Words that only collections change** — what running code in a frame leaves of the stack
  below it.

  While code runs in a frame, nothing but a collection writes below the frame, and nothing at
  all writes to the bookkeeping of the frames that are open.  `Within` says so of two memories,
  one of which has become the other, and `Calm` of a computation, provided that it does not pop
  more words than there are above the bookkeeping of its frame.  Calm computations can be put
  one after the other, so services and instructions are calm because their parts are.

  What is above the bookkeeping is counted in words: a computation that starts with `k` of them
  ends with `k'`, or fails with at least `low` left.
-/
import ObjectMachine.Proofs.CollectedMemory
import ObjectMachine.Proofs.Discipline
import ObjectMachine.Proofs.ObjectAccess
import ObjectMachine.Proofs.StackScan

namespace ObjectMachine

namespace Memory

/-! ### Relocation -/

/-- **The same word, up to relocation.**  Memory operations lead from `x` to a memory, and only
    the collections among them change the word at a stack offset. -/
inductive Relocated (p : Nat) (x : Memory) : Memory → Prop where
  | refl : Relocated p x x
  | operation {y : Memory} (before : Relocated p x y) (op : Operation)
      (same : (y.after op).stack.bytes.word? p = y.stack.bytes.word? p) : Relocated p x (y.after op)
  | note {y : Memory} (before : Relocated p x y) (event : Event) :
      Relocated p x { y with journal := y.journal.note event }
  | collection {y z : Memory} (before : Relocated p x y) (run : y.collected = .ok z) :
      Relocated p x z

theorem Relocated.trans {p : Nat} {x y z : Memory} (first : Relocated p x y)
    (second : Relocated p y z) : Relocated p x z := by
  induction second with
  | refl => exact first
  | operation _ op same ih => exact ih.operation op same
  | note _ event ih => exact ih.note event
  | collection _ run ih => exact ih.collection run

/-- **Inside a frame.**  One memory has become another while code ran in the frame at `base`:
    the same frames are open and return to the same addresses, and only collections have
    changed words below the frame. -/
structure Within (base : Nat) (outer : List Nat) (x y : Memory) : Prop where
  nested : y.stack.Nested (base :: outer)
  returns : ∀ b ∈ base :: outer, y.stack.bytes.word? (b + 4) = x.stack.bytes.word? (b + 4)
  below : ∀ p, p % 4 = 0 → p + 4 ≤ base → Relocated p x y

section Within

variable {base : Nat} {outer : List Nat} {x y z : Memory}

theorem Within.refl (nested : x.stack.Nested (base :: outer)) : Within base outer x x :=
  ⟨nested, fun _ _ => rfl, fun _ _ _ => .refl⟩

theorem Within.trans (first : Within base outer x y) (second : Within base outer y z) :
    Within base outer x z where
  nested := second.nested
  returns b mem := (second.returns b mem).trans (first.returns b mem)
  below p aligned low := (first.below p aligned low).trans (second.below p aligned low)

/-- The stack has not been touched. -/
theorem Within.of_stack (nested : x.stack.Nested (base :: outer)) (stack : y.stack = x.stack)
    (relocated : ∀ p, y.stack.bytes.word? p = x.stack.bytes.word? p → Relocated p x y) :
    Within base outer x y where
  nested := stack ▸ nested
  returns b _ := by rw [stack]
  below p _ _ := relocated p (by rw [stack])

theorem Within.operation (nested : x.stack.Nested (base :: outer)) (op : Operation)
    (stack : (x.after op).stack = x.stack) : Within base outer x (x.after op) :=
  .of_stack nested stack fun _ same => Relocated.refl.operation op same

theorem Within.note (nested : x.stack.Nested (base :: outer)) (event : Event) :
    Within base outer x { x with journal := x.journal.note event } :=
  .of_stack nested rfl fun _ _ => Relocated.refl.note event

/-- An operation of the stack that neither opens nor drops a frame, and sets no argument. -/
theorem Within.stack (nested : x.stack.Nested (base :: outer)) {op : FrameStack.Operation}
    (careful : op.disciplined x.stack = true) (memory : Operation)
    (eq : (x.after memory).stack = op.after x.stack) (stays : op ≠ .discardFrame)
    (frames : op.framesAfter x.stack (base :: outer) = base :: outer)
    (silent : ∀ p, ¬op.Reaches x.stack 0 p) : Within base outer x (x.after memory) where
  nested := by
    have step := nested.step careful
    rwa [frames, ← eq] at step
  returns b mem := by
    have spares := nested.spares_frame careful mem fun dropped => absurd dropped stays
    rw [eq]
    exact (FrameStack.Operation.same_after nested.bounded spares).word? 4 (by omega)
  below p aligned low := by
    have nested : x.stack.Nested ([] ++ base :: outer) := nested
    have same := nested.word_below careful (fun dropped => absurd dropped stays) aligned low (silent p)
    exact Relocated.refl.operation memory (by rw [eq, same])

/-! ### Collections -/

/-- A collection leaves the pointers and the bookkeeping of the stack as they are. -/
theorem nested_of_collected {bases : List Nat} (nested : x.stack.Nested bases)
    (run : x.collected = .ok y) : y.stack.Nested bases ∧
      (∀ b ∈ bases, y.stack.bytes.word? (b + 4) = x.stack.bytes.word? (b + 4)) ∧
      y.stack.sp = x.stack.sp ∧ y.stack.bp = x.stack.bp := by
  obtain ⟨e, e', visited⟩ := visitWords_of_collected run
  obtain ⟨fits, words, -, scan⟩ := nested.visitWords_eq
  rw [scan, map_eq_pure_bind] at visited
  obtain ⟨results, e₁, -, last⟩ := Evacuation.bind_eq_ok visited
  have stack : y.stack = x.stack.storeAll (x.stack.liveOffsets ⟨bases, none⟩) results :=
    (congrArg Prod.fst (Except.ok.inj last)).symm
  obtain ⟨sp, bp, size⟩ :=
    FrameStack.storeAll_sp_bp (x.stack.liveOffsets ⟨bases, none⟩) x.stack results
  rw [← stack] at sp bp size
  have effect : FrameStack.Effect x.stack (.visit fun _ w => w)
      ⟨y.stack.bytes, x.stack.sp, x.stack.bp⟩ := by
    refine .visit (nested.linked.chain_eq nested.below) size fun p n apart => ?_
    rw [stack]
    exact FrameStack.same_storeAll _ _ _ fits apart
  have same : y.stack = ⟨y.stack.bytes, x.stack.sp, x.stack.bp⟩ := by rw [← sp, ← bp]
  rw [← same] at effect
  refine ⟨?_, ?_, sp, bp⟩
  · refine nested.keep rfl effect nofun bp ?_ ?_
    · rw [sp]
      exact nested.aligned
    · rw [sp]
      exact nested.below
  · intro b mem
    have spares : (FrameStack.Operation.visit fun _ w => w).Spares x.stack b 8 :=
      nested.spares_frame rfl mem nofun
    exact (effect.same nested.bounded spares).word? 4 (by omega)

theorem Within.collection (nested : x.stack.Nested (base :: outer)) (run : x.collected = .ok y) :
    Within base outer x y ∧ y.stack.sp = x.stack.sp ∧ y.stack.bp = x.stack.bp := by
  obtain ⟨nested', returns, sp, bp⟩ := nested_of_collected nested run
  exact ⟨⟨nested', returns, fun _ _ _ => Relocated.refl.collection run⟩, sp, bp⟩

end Within

/-! ### Allocation -/

section Allocation

variable {s : FrameStack} {kind : ObjectKind} {size : Word} {classId : Option ClassId} {c r : Ref}

/-- The stack of a memory is this one. -/
def HasStack (s : FrameStack) (x : Memory) : Prop := x.stack = s

theorem hasStack_layOutObject : Preserves (HasStack s) (layOutObject r kind size c) := by
  have header : Preserves (HasStack s) (writeHeader r ⟨kind, size, .normal c⟩) := by
    refine Preserves.get_bind fun m => ?_
    split
    · exact (Preserves.throw _).bind fun _ x holds => holds
    · exact fun x holds => holds
  refine header.bind fun _ => ?_
  split
  · have asked : Preserves (HasStack s) (query (·.header r)) := by
      intro x holds
      unfold query
      split <;> exact holds
    exact asked.bind fun _ => Preserves.bind (fun x holds => holds) fun _ => Preserves.pure r
  · exact Preserves.pure r

/-- What is left to do once there is room for an object. -/
def completeObject (kind : ObjectKind) (size : Word) (classId : Option ClassId) (r : Ref) :
    Run Ref := do
  let c ← query (·.classOrNull classId)
  layOutObject r kind size c

theorem hasStack_completeObject : Preserves (HasStack s) (completeObject kind size classId r) := by
  intro x holds
  unfold completeObject
  cases found : x.classOrNull classId with
  | ok c =>
    rw [run_bind_ok (query_ok found)]
    exact hasStack_layOutObject x holds
  | error e =>
    rw [run_bind_error (query_error found)]
    exact holds

theorem allocateObject_of_allocate {x y : Memory} (known : x.classOrNull classId = .ok c)
    (run : allocate (kind.objectBytes size) x = .ok r y) :
    allocateObject kind size classId x = completeObject kind size classId r y := by
  rw [allocateObject_eq, run_bind_ok (query_ok known), run_bind_ok run]
  rfl

/-- **Allocating an object** does nothing to the stack, unless it collects first. -/
theorem after_allocateObject (x : Memory) (kind : ObjectKind) (size : Word)
    (classId : Option ClassId) :
    (x.after (.allocateObject kind size classId)).stack = x.stack ∨ ∃ z, x.collected = .ok z ∧
      (x.after (.allocateObject kind size classId) = z ∨ ∃ op,
        x.after (.allocateObject kind size classId) = z.after op ∧ (z.after op).stack = z.stack) := by
  have ends : ∀ y : Memory, y.after (.allocateObject kind size classId) =
      endState (allocateObject kind size classId y) := fun y => endState_ignored _ y
  rw [ends]
  cases known : x.classOrNull classId with
  | error e =>
    rw [allocateObject_missing known]
    exact Or.inl rfl
  | ok c =>
    by_cases room : kind.objectBytes size ≤ x.space.free
    · rw [allocateObject_of_allocate known (allocate_of_room room)]
      exact Or.inl (hasStack_completeObject _ rfl)
    cases run : x.collected with
    | error cause =>
      have failed : allocate (kind.objectBytes size) x = .error (.fault cause) x := by
        unfold allocate
        rw [run_bind_ok (bump_of_full room)]
        exact run_bind_error (collect_of_fault run)
      rw [allocateObject_exhausted known failed]
      exact Or.inl rfl
    | ok z =>
      refine Or.inr ⟨z, rfl, ?_⟩
      by_cases room' : kind.objectBytes size ≤ z.space.free
      · right
        rw [allocateObject_of_allocate known
          (allocate_of_collect room (collect_of_collected run) room')]
        -- the class is still there, but this need not be known
        cases known' : z.classOrNull classId with
        | ok c' =>
          refine ⟨.allocateObject kind size classId, ?_, ?_⟩
          · rw [ends, allocateObject_of_allocate known' (allocate_of_room room')]
          · rw [ends, allocateObject_of_allocate known' (allocate_of_room room')]
            exact hasStack_completeObject _ rfl
        | error e =>
          have bumped : z.after (.allocate (kind.objectBytes size)) =
              { z with space := (z.space.bump (kind.objectBytes size)).2 } :=
            (endState_ignored _ z).trans (congrArg endState (allocate_of_room room'))
          refine ⟨.allocate (kind.objectBytes size), ?_, ?_⟩
          · have missing : Memory.classOrNull
                { z with space := (z.space.bump (kind.objectBytes size)).2 } classId = .error e := by
              cases classId with
              | none => exact known'
              | some id => exact known'
            rw [bumped]
            exact congrArg endState (run_bind_error (query_error missing))
          · rw [bumped]
      · left
        rw [allocateObject_exhausted known
          (allocate_of_exhausted room (collect_of_collected run) room')]
        rfl

end Allocation

end Memory

/-! ### Calm computations -/

open Memory

section Calm

variable {ε σ α β : Type} {mem : σ → Memory} {base : Nat} {outer : List Nat} {k j k' low : Nat}

/-- What a calm computation that started from the memory `x` has led to. -/
def CalmEnd (mem : σ → Memory) (base : Nat) (outer : List Nat) (x : Memory) (k' low : Nat) :
    EStateM.Result ε σ α → Prop
  | .ok _ s => Within base outer x (mem s) ∧ (mem s).stack.HasWords k'
  | .error _ s => Within base outer x (mem s) ∧ (mem s).stack.HasWords low

/-- **Calm.**  From a state with `k` words above the bookkeeping of the frame at `base`, the
    computation stays inside the frame and ends with `k'` words, or fails with `low`. -/
def Calm (mem : σ → Memory) (base : Nat) (outer : List Nat) (k : Nat) (x : EStateM ε σ α)
    (k' low : Nat) : Prop :=
  ∀ s, (mem s).stack.Nested (base :: outer) → (mem s).stack.HasWords k →
    CalmEnd mem base outer (mem s) k' low (x s)

theorem HasWords.mono_words {s : FrameStack} (words : s.HasWords k) (le : j ≤ k) : s.HasWords j := by
  intro open_
  have := words open_
  omega

theorem CalmEnd.after {x y : Memory} (first : Within base outer x y) {r : EStateM.Result ε σ α}
    (h : CalmEnd mem base outer y k' low r) : CalmEnd mem base outer x k' low r := by
  cases r with
  | ok a s => exact ⟨first.trans h.1, h.2⟩
  | error e s => exact ⟨first.trans h.1, h.2⟩

theorem CalmEnd.bind {x : EStateM ε σ α} {f : α → EStateM ε σ β} {s : σ}
    (first : CalmEnd mem base outer (mem s) j low (x s))
    (rest : ∀ a, Calm mem base outer j (f a) k' low) :
    CalmEnd mem base outer (mem s) k' low ((x >>= f) s) := by
  cases run : x s with
  | ok a s' =>
    rw [run] at first
    rw [run_bind_ok run]
    exact (rest a s' first.1.nested first.2).after first.1
  | error e s' =>
    rw [run] at first
    rw [run_bind_error run]
    exact first

namespace Calm

theorem bind {x : EStateM ε σ α} {f : α → EStateM ε σ β} (first : Calm mem base outer k x j low)
    (rest : ∀ a, Calm mem base outer j (f a) k' low) : Calm mem base outer k (x >>= f) k' low :=
  fun s nested words => (first s nested words).bind rest

theorem throw (e : ε) (le : low ≤ k) :
    Calm mem base outer k (MonadExcept.throw e : EStateM ε σ α) k' low := fun _ nested words =>
  ⟨.refl nested, HasWords.mono_words words le⟩

theorem get_bind {f : σ → EStateM ε σ β} (h : ∀ s, Calm mem base outer k (f s) k' low) :
    Calm mem base outer k (get >>= f) k' low := fun s nested words => h s s nested words

/-- A computation that leaves the pointers of the stack alone. -/
theorem of_within {x : EStateM ε σ α} (le : low ≤ k)
    (h : ∀ s, (mem s).stack.Nested (base :: outer) → Within base outer (mem s) (mem (endState (x s))) ∧
      (mem (endState (x s))).stack.sp = (mem s).stack.sp ∧
      (mem (endState (x s))).stack.bp = (mem s).stack.bp) : Calm mem base outer k x k low := by
  intro s nested words
  obtain ⟨within, sp, bp⟩ := h s nested
  have left : (mem (endState (x s))).stack.HasWords k := by
    unfold FrameStack.HasWords
    rw [sp, bp]
    exact words
  cases run : x s with
  | ok a s' =>
    rw [run] at within left
    exact ⟨within, left⟩
  | error e s' =>
    rw [run] at within left
    exact ⟨within, HasWords.mono_words left le⟩

/-- A computation that does nothing to the memory. -/
theorem idle {x : EStateM ε σ α} (same : ∀ s, mem (endState (x s)) = mem s) (le : low ≤ k) :
    Calm mem base outer k x k low := by
  refine of_within le fun s nested => ?_
  rw [same]
  exact ⟨.refl nested, rfl, rfl⟩

theorem pure (a : α) (le : low ≤ k) :
    Calm mem base outer k (Pure.pure a : EStateM ε σ α) k low := idle (fun _ => rfl) le

/-- Fewer words are asked for. -/
theorem mono {x : EStateM ε σ α} (h : Calm mem base outer k x j low) (le : k' ≤ j) :
    Calm mem base outer k x k' low := by
  intro s nested words
  have first := h s nested words
  cases run : x s with
  | ok a s' =>
    rw [run] at first
    exact ⟨first.1, HasWords.mono_words first.2 le⟩
  | error e s' =>
    rw [run] at first
    exact first

end Calm

end Calm

/-! ### Memory operations -/

namespace Memory

section Calm

variable {α : Type} {base : Nat} {outer : List Nat} {k k' low : Nat}

theorem calm_iff {act : Run α} : Calm id base outer k act k' low ↔ ∀ x : Memory,
    x.stack.Nested (base :: outer) → x.stack.HasWords k → CalmEnd id base outer x k' low (act x) :=
  Iff.rfl

/-- An operation that leaves the pointers of the stack alone. -/
theorem calm_of_within {act : Run α} (le : low ≤ k)
    (h : ∀ x : Memory, x.stack.Nested (base :: outer) → Within base outer x (endState (act x)) ∧
      (endState (act x)).stack.sp = x.stack.sp ∧ (endState (act x)).stack.bp = x.stack.bp) :
    Calm id base outer k act k low := Calm.of_within le h

/-- An operation that leaves the stack alone. -/
theorem calm_of_operation {act : Run α} (op : Operation) (le : low ≤ k)
    (eq : ∀ x : Memory, endState (act x) = x.after op)
    (stack : ∀ x : Memory, (x.after op).stack = x.stack) :
    Calm id base outer k act k low := by
  refine calm_of_within le fun x nested => ?_
  rw [eq, stack]
  exact ⟨.operation nested op (stack x), rfl, rfl⟩

theorem calm_query (f : Memory → Except MemoryError α) (le : low ≤ k) :
    Calm id base outer k (query f) k low := by
  refine .idle (fun x => ?_) le
  unfold query
  split <;> rfl

theorem calm_note (event : Event) (le : low ≤ k) : Calm id base outer k (note event) k low :=
  calm_of_within le fun _ nested => ⟨.note nested event, rfl, rfl⟩

theorem calm_setPc (pc : CodeAddress) (le : low ≤ k) : Calm id base outer k (setPc pc) k low :=
  calm_of_operation (.setPc pc) le (fun _ => rfl) fun _ => rfl

theorem calm_collect (le : low ≤ k) : Calm id base outer k collect k low := by
  refine calm_of_within le fun x nested => ?_
  unfold collect
  cases run : x.collected with
  | ok y => exact Within.collection nested run
  | error cause => exact ⟨.refl nested, rfl, rfl⟩

theorem calm_allocateObject (kind : ObjectKind) (size : Word) (classId : Option ClassId)
    (le : low ≤ k) : Calm id base outer k (allocateObject kind size classId) k low := by
  refine calm_of_within le fun x nested => ?_
  have ends : endState (allocateObject kind size classId x) =
      x.after (.allocateObject kind size classId) := (endState_ignored _ x).symm
  rw [ends]
  rcases after_allocateObject x kind size classId with same | ⟨z, run, same | ⟨op, same, stack⟩⟩
  · rw [same]
    exact ⟨.operation nested _ same, rfl, rfl⟩
  · rw [same]
    exact Within.collection nested run
  · obtain ⟨within, sp, bp⟩ := Within.collection nested run
    rw [same, stack]
    exact ⟨within.trans (.operation within.nested op stack), sp, bp⟩

theorem stack_after_write (x : Memory) (addr : Ref) (write : Write) :
    (x.after (.write addr write)).stack = x.stack := by
  obtain ⟨bytes, eq, -⟩ := after_write x addr write
  rw [eq]

theorem calm_setField (addr : Ref) (index : Nat) (value : Word) (le : low ≤ k) :
    Calm id base outer k (setField addr index value) k low :=
  calm_of_operation (.write addr (.field index value)) le (fun x => (endState_ignored _ x).symm)
    fun x => stack_after_write x addr _

theorem calm_setPayload (addr : Ref) (start : Nat) (xs : List UInt8) (le : low ≤ k) :
    Calm id base outer k (setPayload addr start xs) k low :=
  calm_of_operation (.write addr (.payload start xs)) le (fun x => (endState_ignored _ x).symm)
    fun x => stack_after_write x addr _

theorem stack_onStack (act : FrameStack.Run α) (x : Memory) :
    endState (onStack act x) = { x with stack := endState (act x.stack) } := by
  cases x with
  | mk space stack code pc methods constants classes dictionaries stats journal =>
    unfold onStack
    dsimp only
    cases act stack <;> rfl

/-- An operation of the stack as one of the memory. -/
theorem stack_after_onStack {op : FrameStack.Operation} {memory : Operation}
    (run : memory.run = onStack op.run) (x : Memory) :
    (x.after memory).stack = op.after x.stack := by
  have ends : op.after x.stack = endState (op.run x.stack) := by
    unfold FrameStack.Operation.after
    cases op.run x.stack <;> rfl
  unfold Memory.after
  rw [run, stack_onStack, ends]

theorem calm_pushWord (w : Word) (le : low ≤ k) :
    Calm id base outer k (pushWord w) (k + 1) low := by
  refine calm_iff.2 fun x nested words => ?_
  rcases (FrameStack.Operation.push w).run_cases nested.bounded with ⟨s, run, effect⟩ | ⟨e, run, -⟩
  · have pushed : pushWord w x = .ok () { x with stack := s } := onStack_ok run
    have after : x.after (.pushWord w) = { x with stack := s } := congrArg endState pushed
    have stack : (x.after (.pushWord w)).stack = (FrameStack.Operation.push w).after x.stack :=
      stack_after_onStack rfl x
    have within := Within.stack nested rfl (.pushWord w) stack nofun rfl fun _ => id
    rw [pushed]
    rw [after] at within
    refine ⟨within, fun open_ => ?_⟩
    cases effect
    have := words open_
    change x.stack.bp.toNat + 8 + 4 * (k + 1) ≤ x.stack.sp + 4
    omega
  · have full : pushWord w x = .error e x := onStack_error run
    rw [full]
    exact ⟨.refl nested, HasWords.mono_words words le⟩

/-- The innermost frame is at the base pointer. -/
theorem base_eq {s : FrameStack} (nested : s.Nested (base :: outer)) :
    s.bp ≠ noFrame ∧ s.bp.toNat = base := by
  rcases nested.linked.innermost with ⟨-, none⟩ | ⟨link, rest, open_, eq, -⟩
  · cases none
  · cases eq
    exact ⟨open_, rfl⟩

/-- **Popping** gives the word on top. -/
theorem popWord_eq {x : Memory} (nested : x.stack.Nested (base :: outer))
    (words : x.stack.HasWords (k + 1)) : ∃ w, x.peekRef 0 = .ok ⟨w⟩ ∧
      x.stack.bytes.word? (x.stack.sp - 4) = some w ∧
      popWord x = .ok w { x with stack := ⟨x.stack.bytes, x.stack.sp - 4, x.stack.bp⟩ } := by
  have top := words (base_eq nested).1
  have fits := nested.bounded.sp_le
  obtain ⟨w, word⟩ := (Bytes.word?_eq_some_iff_le x.stack.bytes (x.stack.sp - 4)).2 (by omega)
  refine ⟨w, ?_, word, onStack_ok (FrameStack.pop_eq (by omega) word)⟩
  have seen : x.stack.peek 0 = .ok w := by
    unfold FrameStack.peek
    dsimp only
    rw [if_neg (by decide), if_neg (by omega), word]
  unfold peekRef
  rw [seen]
  rfl

theorem calm_popWord (le : low ≤ k) : Calm id base outer (k + 1) popWord k low := by
  refine calm_iff.2 fun x nested words => ?_
  obtain ⟨w, -, word, run⟩ := popWord_eq nested words
  have top := words (base_eq nested).1
  have popped := FrameStack.pop_eq (s := x.stack) (by omega) word
  have after : x.after .popWord =
      { x with stack := ⟨x.stack.bytes, x.stack.sp - 4, x.stack.bp⟩ } :=
    congrArg endState (run_bind_ok run)
  have stack : (x.after .popWord).stack = FrameStack.Operation.pop.after x.stack := by
    have run : FrameStack.Operation.pop.run x.stack = .ok () _ := run_bind_ok popped
    rw [after, FrameStack.Operation.after, run]
  have careful : FrameStack.Operation.pop.disciplined x.stack = true := by
    unfold FrameStack.Operation.disciplined
    simp only [Bool.or_eq_true, beq_iff_eq, decide_eq_true_eq]
    exact Or.inr (by omega)
  have within := Within.stack nested careful .popWord stack nofun rfl fun _ => id
  rw [run]
  rw [after] at within
  refine ⟨within, fun _ => ?_⟩
  change x.stack.bp.toNat + 8 + 4 * k ≤ x.stack.sp - 4
  omega

/-- Reading a slot. -/
theorem calm_onStack_read {act : FrameStack.Run α} (le : low ≤ k)
    (h : ∀ s : FrameStack, s.Bounded → endState (act s) = s) :
    Calm id base outer k (onStack act) k low := by
  refine calm_of_within le fun x nested => ?_
  rw [stack_onStack, h _ nested.bounded]
  exact ⟨.refl nested, rfl, rfl⟩

theorem calm_getLocal (index : Word) (le : low ≤ k) : Calm id base outer k (getLocal index) k low := by
  refine calm_onStack_read le fun s bounded => ?_
  rcases FrameStack.readSlot_cases (f := (·.localOffset index))
    (fun _ slot => (FrameStack.localOffset_bounds slot).2.2) (fun _ => FrameStack.localOffset_error)
    with ⟨r, run⟩ | ⟨e, run, -⟩
  · exact congrArg endState run
  · exact congrArg endState run

theorem calm_arg (index : Word) (le : low ≤ k) : Calm id base outer k (arg index) k low := by
  refine calm_onStack_read le fun s bounded => ?_
  rcases FrameStack.readSlot_cases (f := (·.argOffset index))
    (fun _ slot => (FrameStack.argOffset_bounds slot).2.2) (fun _ => FrameStack.argOffset_error)
    with ⟨r, run⟩ | ⟨e, run, -⟩
  · exact congrArg endState run
  · exact congrArg endState run

theorem calm_setLocal (index : Word) (value : Ref) (le : low ≤ k) :
    Calm id base outer k (setLocal index value) k low := by
  refine calm_of_within le fun x nested => ?_
  have after : endState (setLocal index value x) = x.after (.setLocal index value) := rfl
  have stack : (x.after (.setLocal index value)).stack =
      (FrameStack.Operation.setLocal index value).after x.stack := stack_after_onStack rfl x
  rw [after]
  refine ⟨Within.stack nested rfl _ stack nofun rfl fun _ => id, ?_⟩
  rw [stack]
  rcases (FrameStack.Operation.setLocal index value).after_cases nested.bounded with effect | same
  · generalize (FrameStack.Operation.setLocal index value).after x.stack = s at effect
    cases effect
    exact ⟨rfl, rfl⟩
  · rw [same]
    exact ⟨rfl, rfl⟩

end Calm

end Memory

end ObjectMachine
