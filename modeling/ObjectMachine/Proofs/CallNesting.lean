/-
  ObjectMachine/Proofs/CallNesting.lean
  =====================================
  **Calls nest** — a frame that is opened and, after anything that programs may do in it, dropped
  again leaves the stack of its caller as it was.

  Programs have to keep to their own words: they do not pop the bookkeeping of their frame, and
  their argument slots lie above the bookkeeping of their caller's frame.  Everything else is
  free, also slots of locals that lie among the operands or above the top of the stack.
-/
import ObjectMachine.Proofs.StackRuns

namespace ObjectMachine.FrameStack

variable {s s' : FrameStack} {op : Operation} {bases inner outer : List Nat} {base : Nat}

/-! ### Discipline -/

namespace Operation

/-- A pop leaves the bookkeeping of the current frame alone, and an argument slot lies above the
    bookkeeping of the frame that its own was opened from. -/
def disciplined (s : FrameStack) : Operation → Bool
  | pop => s.bp == noFrame || s.bp.toNat + 8 ≤ s.sp - 4
  | arg index | setArg index _ =>
    match s.argOffset index, s.bytes.word? s.bp.toNat with
    | .ok offset, some link => link == noFrame || link.toNat + 8 ≤ offset
    | _, _ => true
  | _ => true

def succeeds (op : Operation) (s : FrameStack) : Bool :=
  match op.run s with
  | .ok _ _ => true
  | .error _ _ => false

/-- How many frames are open above a certain one after an operation, if there were `depth`. -/
def depthAfter (op : Operation) (s : FrameStack) (depth : Nat) : Nat :=
  match op with
  | newFrame _ _ => if op.succeeds s then depth + 1 else depth
  | discardFrame => depth - 1
  | _ => depth

/-- Whether a word is passed to visitors. -/
def visits (s : FrameStack) (offset : Nat) : Bool :=
  match s.chain with
  | .ok chain => (s.liveOffsets chain).contains offset
  | .error _ => false

/-- An operation in a frame, or with `depth` frames open above it, writes to a word below it: by
    an argument slot of the frame itself, or by a visitor who sees the word and replaces it. -/
def Reaches (op : Operation) (s : FrameStack) (depth offset : Nat) : Prop :=
  match op with
  | setArg index _ => depth = 0 ∧ s.argOffset index = .ok offset
  | visit _ => visits s offset = true ∧ (op.after s).bytes.word? offset ≠ s.bytes.word? offset
  | _ => False

end Operation

/-- Every operation of a sequence is disciplined. -/
def disciplined : FrameStack → List Operation → Bool
  | _, [] => true
  | s, op :: ops => op.disciplined s && disciplined (op.after s) ops

/-- A sequence of operations drops the frames that it opens, the `depth` frames that are open
    already, and no others. -/
def balanced : FrameStack → (depth : Nat) → List Operation → Bool
  | _, depth, [] => depth == 0
  | s, depth, op :: ops =>
    (match op with
      | .discardFrame => depth != 0
      | _ => true) && balanced (op.after s) (op.depthAfter s depth) ops

/-- A sequence of operations writes to a word below the frame, see `Operation.Reaches`. -/
def Reaches : FrameStack → (depth : Nat) → List Operation → (offset : Nat) → Prop
  | _, _, [], _ => False
  | s, depth, op :: ops, offset =>
    op.Reaches s depth offset ∨ Reaches (op.after s) (op.depthAfter s depth) ops offset

/-! ### Nested frames -/

/-- **Nested frames.**  The links lead through the frames, whose bookkeeping lies below the top of
    the stack, and everything is at word boundaries. -/
structure Nested (s : FrameStack) (bases : List Nat) : Prop where
  bounded : s.Bounded
  aligned : s.sp % 4 = 0
  linked : Linked s.bytes s.bp bases
  below : ∀ base ∈ bases, base + 8 ≤ s.sp

theorem nested_new {size : Nat} (small : size < wordLimit - 1) : (new size).Nested [] where
  bounded := bounded_new small
  aligned := rfl
  linked := .none
  below base mem := by cases mem

section Step

variable (nested : s.Nested bases) (careful : op.disciplined s = true)
include nested

/-- The argument slots of a frame lie above the bookkeeping of the others. -/
theorem Nested.argument_above {index : Word} {value : Ref} {offset : Nat}
    (careful : (Operation.setArg index value).disciplined s = true)
    (slot : s.argOffset index = .ok offset) :
    ∀ base ∈ bases, base ≠ s.bp.toNat → base + 8 ≤ offset := by
  intro base mem other
  rcases nested.linked.innermost with ⟨-, rfl⟩ | ⟨link, outer, -, rfl, linked, rest, -⟩
  · cases mem
  · have mem := (List.mem_cons.1 mem).resolve_left other
    obtain ⟨linked_open, le⟩ := rest.le_bp base mem
    unfold Operation.disciplined at careful
    dsimp only at careful
    rw [slot, linked] at careful
    simp only [Bool.or_eq_true, beq_iff_eq, decide_eq_true_eq] at careful
    have := careful.resolve_left linked_open
    omega

include careful

/-- The bookkeeping of frames that stay open is left alone. -/
theorem Nested.spares_frame {base : Nat} (mem : base ∈ bases)
    (stays : op = .discardFrame → base ≠ s.bp.toNat) : op.Spares s base 8 := by
  have below := nested.below base mem
  have aligned := nested.linked.aligned base mem
  obtain ⟨open_, le⟩ := nested.linked.le_bp base mem
  cases op with
  | push | newFrame => exact below
  | pop | peek | arg | getLocal => trivial
  | discardFrame =>
    rcases nested.linked.innermost with ⟨-, rfl⟩ | ⟨link, outer, -, rfl, -, -, above⟩
    · cases mem
    · exact above base ((List.mem_cons.1 mem).resolve_left (stays rfl))
  | setArg index value =>
    intro offset slot
    by_cases own : base = s.bp.toNat
    · have := (argOffset_bounds slot).2.1
      exact Or.inr (by omega)
    · exact Or.inl (nested.argument_above careful slot base mem own)
  | setLocal index value =>
    intro offset slot
    have := (localOffset_bounds slot).2.1
    exact Or.inl (by omega)
  | visit visitor =>
    intro chain frames offset live
    cases (nested.linked.chain_eq nested.below).symm.trans frames
    have free := (List.mem_filter.1 live).2
    obtain ⟨offset_aligned, -⟩ := mem_liveOffsets_lt live
    have apart : offset ≠ base ∧ offset ≠ base + 4 := by
      simp only [Chain.controls, Bool.not_eq_true', List.any_eq_false, Bool.or_eq_true, beq_iff_eq,
        not_or] at free
      exact free base mem
    omega

/-- An operation that neither opens nor drops a frame. -/
theorem Nested.keep (effect : Effect s op s') (stays : op ≠ .discardFrame) (bp : s'.bp = s.bp)
    (aligned : s'.sp % 4 = 0) (below : ∀ base ∈ bases, base + 8 ≤ s'.sp) : s'.Nested bases := by
  refine ⟨effect.bounded nested.bounded, aligned, ?_, below⟩
  rw [bp]
  refine nested.linked.congr fun base mem => ?_
  have spares := nested.spares_frame careful mem fun dropped => absurd dropped stays
  exact (effect.same nested.bounded spares).word? 0 (by omega)

end Step

/-- The frames after an operation. -/
def Operation.framesAfter (op : Operation) (s : FrameStack) (bases : List Nat) : List Nat :=
  match op with
  | newFrame _ _ => if op.succeeds s then s.sp :: bases else bases
  | discardFrame => bases.tail
  | _ => bases

theorem Nested.newFrame {locals : Word} {returnTo : CodeAddress} (nested : s.Nested bases)
    (effect : Effect s (.newFrame locals returnTo) s') : s'.Nested (s.sp :: bases) := by
  have small := nested.bounded.addressable
  have fits := nested.bounded.sp_le
  have sp := nested.bounded.toNat_sp
  have aligned := nested.aligned
  have spares : ∀ base ∈ bases, s'.bytes.Same base s.bytes base 8 := fun base mem =>
    effect.same nested.bounded (nested.below base mem)
  have bounded := effect.bounded nested.bounded
  cases effect with
  | newFrame room =>
    refine ⟨bounded, by dsimp only; omega, ?linked, ?below⟩
    case linked =>
      have open_ : UInt32.ofNat s.sp ≠ noFrame := by
        intro eq
        rw [eq] at sp
        have : noFrame.toNat = 4294967295 := rfl
        unfold wordLimit at small
        omega
      have base : (UInt32.ofNat s.sp).toNat % 4 = 0 := by omega
      have linked := (word?_frameBytes s.bp returnTo locals.toNat room).1
      have outer := nested.linked.congr fun base mem => (spares base mem).word? 0 (by omega)
      have frame := Linked.frame open_ base (by rw [sp]; exact linked) outer
        (by rw [sp]; exact nested.below)
      rwa [sp] at frame
    case below =>
      intro base mem
      dsimp only
      rcases List.mem_cons.1 mem with rfl | mem
      · omega
      · have := nested.below base mem
        omega

/-- **Dropping the innermost frame** succeeds, and leads back to the others. -/
theorem Nested.discardFrame_ok (nested : s.Nested (base :: outer)) :
    s.bp.toNat = base ∧ ∃ link returnTo s', s.bytes.word? base = some link ∧
      s.bytes.word? (base + 4) = some returnTo ∧
      FrameStack.discardFrame s = .ok (if link = noFrame then none else some ⟨returnTo⟩) s' ∧
      s' = ⟨s.bytes.wipe base (s.sp - base), base, link⟩ ∧ s'.Nested outer := by
  rcases nested.linked.innermost with ⟨-, none⟩ | ⟨link, outer', open_, eq, linked, rest, above⟩
  · cases none
  cases eq
  have top := nested.below _ List.mem_cons_self
  have fits := nested.bounded.sp_le
  have lower : link ≠ noFrame → link.toNat + 8 ≤ s.bp.toNat := by
    intro linked_open
    rcases rest.innermost with ⟨none, -⟩ | ⟨_, _, -, rfl, -⟩
    · exact absurd none linked_open
    · exact above _ List.mem_cons_self
  obtain ⟨returnTo, returning⟩ :=
    (Bytes.word?_eq_some_iff_le s.bytes (s.bp.toNat + 4)).2 (by omega)
  have effect := Effect.discardFrame open_ top linked lower
  refine ⟨rfl, link, returnTo, _, linked, returning,
    discardFrame_eq nested.bounded open_ top linked lower returning, rfl,
    effect.bounded nested.bounded, nested.linked.aligned _ List.mem_cons_self, ?_, above⟩
  refine rest.congr fun base mem => ?_
  have spares : Operation.discardFrame.Spares s base 8 := above base mem
  exact (effect.same nested.bounded spares).word? 0 (by omega)

theorem Nested.after_discardFrame (nested : s.Nested bases) :
    (Operation.discardFrame.after s).Nested bases.tail := by
  cases bases with
  | nil =>
    have none : s.bp = noFrame := by
      rcases nested.linked.innermost with ⟨none, -⟩ | ⟨_, _, -, eq, -⟩
      · exact none
      · cases eq
    rcases Operation.discardFrame.after_cases nested.bounded with effect | same
    · generalize Operation.discardFrame.after s = s' at effect
      cases effect with
      | discardFrame open_ => exact absurd none open_
    · rw [same]
      exact nested
  | cons base outer =>
    obtain ⟨-, link, returnTo, s', -, -, run, -, rest⟩ := nested.discardFrame_ok
    have after : Operation.discardFrame.run s = .ok () s' := run_bind_ok run
    unfold Operation.after
    rw [after]
    exact rest

/-- **One operation.** -/
theorem Nested.step (nested : s.Nested bases) (careful : op.disciplined s = true) :
    (op.after s).Nested (op.framesAfter s bases) := by
  have aligned := nested.aligned
  unfold Operation.framesAfter Operation.succeeds
  rcases op.run_cases nested.bounded with ⟨s', run, effect⟩ | ⟨e, run, -⟩
  · have after : op.after s = s' := by
      unfold Operation.after
      rw [run]
    rw [run]
    cases op with
    | newFrame locals returnTo =>
      rw [after]
      exact nested.newFrame effect
    | discardFrame => exact nested.after_discardFrame
    | push w =>
      rw [after]
      refine nested.keep careful effect nofun ?_ ?_ ?_ <;> cases effect
      · rfl
      · dsimp only
        omega
      · intro base mem
        have := nested.below base mem
        dsimp only
        omega
    | pop =>
      rw [after]
      refine nested.keep careful effect nofun ?_ ?_ ?_ <;> cases effect
      · rfl
      · dsimp only
        omega
      · intro base mem
        obtain ⟨open_, le⟩ := nested.linked.le_bp base mem
        unfold Operation.disciplined at careful
        simp only [Bool.or_eq_true, beq_iff_eq, decide_eq_true_eq] at careful
        have := careful.resolve_left open_
        dsimp only
        omega
    | peek | arg | getLocal | setArg | setLocal | visit =>
      rw [after]
      refine nested.keep careful effect nofun ?_ ?_ ?_ <;> cases effect
      · rfl
      · exact aligned
      · exact nested.below
  · have after : op.after s = s := by
      unfold Operation.after
      rw [run]
    rw [run]
    cases op with
    | discardFrame => exact nested.after_discardFrame
    | _ =>
      rw [after]
      exact nested

theorem Nested.runAll {ops : List Operation} (nested : s.Nested bases)
    (careful : s.disciplined ops = true) : ∃ bases, (s.runAll ops).Nested bases := by
  induction ops generalizing s bases with
  | nil => exact ⟨bases, nested⟩
  | cons op ops ih =>
    simp only [FrameStack.disciplined, Bool.and_eq_true] at careful
    exact ih (nested.step careful.1) careful.2

/-! ### Inside a call -/

/-- A frame is the innermost one, or the innermost one lies above its bookkeeping. -/
theorem Nested.depth (nested : s.Nested (inner ++ base :: outer)) :
    (inner = [] ∧ s.bp.toNat = base) ∨ (inner ≠ [] ∧ base + 8 ≤ s.bp.toNat) := by
  rcases nested.linked.innermost with ⟨-, eq⟩ | ⟨link, rest, -, eq, -, -, above⟩
  · exact absurd eq (by simp)
  · cases inner with
    | nil =>
      cases eq
      exact Or.inl ⟨rfl, rfl⟩
    | cons first inner =>
      cases eq
      refine Or.inr ⟨nofun, above base ?_⟩
      exact List.mem_append_right _ List.mem_cons_self

/-- A word below a frame is written only by an argument slot of the frame itself or by a
    visitor. -/
theorem Nested.word_below {p : Nat} (nested : s.Nested (inner ++ base :: outer))
    (careful : op.disciplined s = true) (stays : op = .discardFrame → inner ≠ [])
    (aligned : p % 4 = 0) (below : p + 4 ≤ base) (untouched : ¬op.Reaches s inner.length p) :
    (op.after s).bytes.word? p = s.bytes.word? p := by
  have mem : base ∈ inner ++ base :: outer := List.mem_append_right _ List.mem_cons_self
  have top := nested.below base mem
  have base_aligned := nested.linked.aligned base mem
  have same : op.Spares s p 4 → (op.after s).bytes.word? p = s.bytes.word? p := fun spares =>
    (Operation.same_after nested.bounded spares).word? 0 (by omega)
  cases op with
  | visit visitor =>
    by_contra changed
    refine changed (same ?_)
    intro chain frames offset live
    obtain ⟨offset_aligned, -⟩ := mem_liveOffsets_lt live
    have other : offset ≠ p := by
      rintro rfl
      refine untouched ⟨?_, changed⟩
      unfold Operation.visits
      rw [frames]
      exact List.contains_iff_mem.2 live
    omega
  | push | newFrame => exact same (show p + 4 ≤ s.sp by omega)
  | pop | peek | arg | getLocal => exact same trivial
  | discardFrame =>
    rcases nested.depth with ⟨here, -⟩ | ⟨-, above⟩
    · exact absurd here (stays rfl)
    · exact same (show p + 4 ≤ s.bp.toNat by omega)
  | setLocal index value =>
    refine same fun offset slot => Or.inl ?_
    have := (localOffset_bounds slot).2.1
    have := (nested.linked.le_bp base mem).2
    omega
  | setArg index value =>
    refine same fun offset slot => ?_
    rcases nested.depth with ⟨rfl, here⟩ | ⟨-, above⟩
    · have other : offset ≠ p := fun eq => untouched ⟨rfl, eq ▸ slot⟩
      have := (argOffset_bounds slot).2.1
      omega
    · have := nested.argument_above careful slot base mem (by omega)
      exact Or.inl (by omega)

/-- While a frame stays open, an operation changes the frames above it only. -/
theorem Operation.framesAfter_append (s : FrameStack) (base : Nat) (outer : List Nat)
    (stays : op = .discardFrame → inner ≠ []) :
    ∃ inner', op.framesAfter s (inner ++ base :: outer) = inner' ++ base :: outer ∧
      op.depthAfter s inner.length = inner'.length := by
  cases op with
  | newFrame locals returnTo =>
    unfold framesAfter depthAfter
    by_cases succeeds : (newFrame locals returnTo).succeeds s = true
    · refine ⟨s.sp :: inner, ?_, ?_⟩ <;> rw [if_pos succeeds] <;> rfl
    · refine ⟨inner, ?_, ?_⟩ <;> rw [if_neg succeeds]
  | discardFrame =>
    refine ⟨inner.tail, List.tail_append_of_ne_nil (stays rfl), ?_⟩
    exact List.length_tail.symm
  | _ => exact ⟨inner, rfl, rfl⟩

/-- **Inside a call.**  Operations that drop the frames that they open lead back to the frame they
    began in, with its bookkeeping as it was and the words below it where they were not reached. -/
theorem Nested.call {ops : List Operation} (nested : s.Nested (inner ++ base :: outer))
    (careful : s.disciplined ops = true) (paired : s.balanced inner.length ops = true) :
    (s.runAll ops).Nested (base :: outer) ∧ (s.runAll ops).bytes.Same base s.bytes base 8 ∧
      ∀ p, p % 4 = 0 → p + 4 ≤ base → ¬s.Reaches inner.length ops p →
        (s.runAll ops).bytes.word? p = s.bytes.word? p := by
  induction ops generalizing s inner with
  | nil =>
    obtain rfl : inner = [] := List.length_eq_zero_iff.1 (by simpa [balanced] using paired)
    exact ⟨nested, Bytes.Same.refl _ _ _, fun _ _ _ _ => rfl⟩
  | cons op ops ih =>
    simp only [FrameStack.disciplined, Bool.and_eq_true] at careful
    simp only [balanced, Bool.and_eq_true] at paired
    have stays : op = .discardFrame → inner ≠ [] := by
      rintro rfl rfl
      cases paired.1
    obtain ⟨inner', frames, depth⟩ := op.framesAfter_append s base outer stays
    have next := nested.step careful.1
    rw [frames] at next
    rw [depth] at paired
    obtain ⟨rest, kept, words⟩ := ih next careful.2 paired.2
    have mem : base ∈ inner ++ base :: outer := List.mem_append_right _ List.mem_cons_self
    have spares : op.Spares s base 8 := by
      refine nested.spares_frame careful.1 mem fun dropped => ?_
      rcases nested.depth with ⟨here, -⟩ | ⟨-, above⟩
      · exact absurd here (stays dropped)
      · omega
    refine ⟨rest, kept.trans (Operation.same_after nested.bounded spares), ?_⟩
    intro p aligned below untouched
    have untouched := not_or.1 untouched
    rw [depth] at untouched
    exact (words p aligned below untouched.2).trans
      (nested.word_below careful.1 stays aligned below untouched.1)

/-- **Calls nest.**  After any disciplined operations a frame is opened, and after any that drop
    the frames they open it is dropped again.  This succeeds and gives the return address, if
    there was a caller's frame; the pointers are those from before the call, the bytes of the
    frame and what was left above it are zero, and the words below are as they were, unless an
    argument slot of the frame or a visitor wrote to them. -/
theorem calls_nest {size : Nat} (small : size < wordLimit - 1) {before ops : List Operation}
    {locals : Word} {returnTo : CodeAddress} {s₁ : FrameStack}
    (reached : (new size).disciplined before = true)
    (called : FrameStack.newFrame locals returnTo ((new size).runAll before) = .ok () s₁)
    (careful : s₁.disciplined ops = true) (paired : s₁.balanced 0 ops = true) :
    let s₀ := (new size).runAll before
    let s₂ := s₁.runAll ops
    ∃ s₃, FrameStack.discardFrame s₂ =
        .ok (if s₀.bp = noFrame then none else some returnTo) s₃ ∧
      s₃.sp = s₀.sp ∧ s₃.bp = s₀.bp ∧
      (∀ i, s₀.sp ≤ i → i < s₂.sp → s₃.bytes[i]? = some 0) ∧
      ∀ p, p % 4 = 0 → p + 4 ≤ s₀.sp → ¬s₁.Reaches 0 ops p →
        s₃.bytes.word? p = s₀.bytes.word? p := by
  intro s₀ s₂
  obtain ⟨outer, start⟩ := (nested_new small).runAll reached
  have effect : Effect s₀ (.newFrame locals returnTo) s₁ := by
    rcases (Operation.newFrame locals returnTo).run_cases start.bounded with
      ⟨s', run, effect⟩ | ⟨e, run, -⟩
    · cases run.symm.trans called
      exact effect
    · cases run.symm.trans called
  have opened : s₁.Nested ([] ++ s₀.sp :: outer) := start.newFrame effect
  obtain ⟨back, kept, words⟩ := opened.call careful paired
  obtain ⟨-, link, address, s₃, linked, returning, dropped, rfl, -⟩ := back.discardFrame_ok
  have bookkeeping : s₁.bytes.word? s₀.sp = some s₀.bp ∧
      s₁.bytes.word? (s₀.sp + 4) = some returnTo.word := by
    cases effect with
    | newFrame room => exact word?_frameBytes s₀.bp returnTo locals.toNat room
  have caller : link = s₀.bp :=
    Option.some.inj (linked.symm.trans ((kept.word? 0 (by omega)).trans bookkeeping.1))
  have target : address = returnTo.word :=
    Option.some.inj (returning.symm.trans ((kept.word? 4 (by omega)).trans bookkeeping.2))
  subst caller target
  have top : s₂.sp ≤ s₂.bytes.size := back.bounded.sp_le
  have above : s₀.sp + 8 ≤ s₂.sp := back.below _ List.mem_cons_self
  have fits : s₀.sp + (s₂.sp - s₀.sp) ≤ s₂.bytes.size := by omega
  refine ⟨_, dropped, rfl, rfl, ?_, ?_⟩
  · intro i lower upper
    have inside : i < s₀.sp + (s₂.sp - s₀.sp) := by omega
    exact Bytes.getElem?_wipe s₂.bytes _ _ i fits lower inside
  · intro p aligned below untouched
    have dropping := Bytes.same_wipe s₂.bytes _ _ p 4 fits (Or.inl below)
    have opening : s₁.bytes.Same p s₀.bytes p 4 := effect.same start.bounded below
    calc (s₂.bytes.wipe s₀.sp (s₂.sp - s₀.sp)).word? p
      _ = s₂.bytes.word? p := dropping.word? 0 (by omega)
      _ = s₁.bytes.word? p := words p aligned below untouched
      _ = s₀.bytes.word? p := opening.word? 0 (by omega)

/-- A function with a local that is called while a frame is open, keeps its result in its
    argument slot and has another function called on the way. -/
def nestedCall : List Operation :=
  [.setLocal 0 ⟨3⟩, .push 8, .newFrame 0 ⟨21⟩, .push 1, .discardFrame, .visit fun _ w => w,
    .setArg 0 ⟨4⟩, .push 6]

theorem nestedCall_nests :
    let s₀ := (new 64).runAll [.newFrame 0 ⟨5⟩, .push 7, .push 9]
    ∃ s₁, FrameStack.newFrame 1 ⟨12⟩ s₀ = .ok () s₁ ∧
      ∃ s₃, FrameStack.discardFrame (s₁.runAll nestedCall) = .ok (some ⟨12⟩) s₃ ∧
        s₃.sp = 16 ∧ s₃.bp = 0 ∧ s₃.bytes.word? 8 = some 7 := by
  intro s₀
  have called := newFrame_eq (s := s₀) 1 ⟨12⟩ (by decide +kernel)
  refine ⟨_, called, ?_⟩
  generalize eq : FrameStack.mk _ _ _ = s₁ at called
  have careful : s₁.disciplined nestedCall = true := by
    rw [← eq]
    decide +kernel
  obtain ⟨s₃, dropped, sp, bp, -, below⟩ :=
    calls_nest (by decide) (by decide +kernel) called careful (by rw [← eq]; decide +kernel)
  have caller : s₀.bp ≠ noFrame := by decide +kernel
  rw [if_neg caller] at dropped
  refine ⟨s₃, dropped, sp.trans (by decide +kernel), bp.trans (by decide +kernel), ?_⟩
  refine (below 8 rfl (by decide +kernel) ?_).trans (by decide +kernel)
  rw [← eq]
  simp only [nestedCall, Reaches, Operation.Reaches, false_or, or_false]
  decide +kernel

end ObjectMachine.FrameStack
