/-
  ObjectMachine/Proofs/StackSafety.lean
  =====================================
  **What holds of every stack** — whatever operations are tried on it, in whatever order.

  The pointers never leave the buffer, and an operation that reports an error changes
  nothing.  Alignment is another matter.  A frame that is dropped restores the base that its
  link names, and the link is a word that the program can write: the only check is that it
  leads below the frame.  As long as the links are at word boundaries, so are the pointers, and
  no access leaves the buffer.  A link that is not makes first the base and then the top of the
  stack end up between two words, and a scan then reads past the end of the buffer.
-/
import ObjectMachine.Proofs.StackRuns
import Mathlib.Algebra.Group.Nat.Defs

namespace ObjectMachine.FrameStack

variable {s s' : FrameStack} {op : Operation}

/-! ### Alignment -/

/-- Stack pointer and base pointer are at word boundaries. -/
structure Aligned (s : FrameStack) : Prop where
  sp : s.sp % 4 = 0
  bp : s.bp ≠ noFrame → s.bp.toNat % 4 = 0

/-- The caller's base that the current frame names, if it names one, is at a word boundary. -/
def LinkAligned (s : FrameStack) : Prop :=
  ∀ link, s.bytes.word? s.bp.toNat = some link → link ≠ noFrame → link.toNat % 4 = 0

/-- Every frame that a sequence of operations drops names a base at a word boundary. -/
def LinksAligned : FrameStack → List Operation → Prop
  | _, [] => True
  | s, op :: ops => (op = .discardFrame → s.LinkAligned) ∧ LinksAligned (op.after s) ops

theorem aligned_new (size : Nat) : (new size).Aligned := ⟨rfl, fun open_ => absurd rfl open_⟩

theorem Effect.aligned (bounded : s.Bounded) (aligned : s.Aligned)
    (links : op = .discardFrame → s.LinkAligned) (effect : Effect s op s') : s'.Aligned := by
  have sp := aligned.sp
  cases effect with
  | push => exact ⟨by dsimp only; omega, aligned.bp⟩
  | pop => exact ⟨by dsimp only; omega, aligned.bp⟩
  | peek | arg | getLocal | setArg | setLocal | visit => exact ⟨sp, aligned.bp⟩
  | newFrame room =>
    have := bounded.toNat_sp
    exact ⟨by dsimp only; omega, fun _ => by dsimp only; omega⟩
  | discardFrame open_ above linked outer =>
    exact ⟨aligned.bp open_, fun open_' => links rfl _ linked open_'⟩

theorem Aligned.runAll (bounded : s.Bounded) (aligned : s.Aligned) {ops : List Operation}
    (links : s.LinksAligned ops) : (s.runAll ops).Aligned := by
  induction ops generalizing s with
  | nil => exact aligned
  | cons op ops ih =>
    have next : (op.after s).Aligned := by
      rcases op.after_cases bounded with effect | same
      · exact effect.aligned bounded aligned links.1
      · rw [same]
        exact aligned
    exact ih (op.bounded_after bounded) next links.2

/-! ### Every run -/

/-- Whether an operation leaves the buffer or the host's integers. -/
def Operation.stops (op : Operation) (s : FrameStack) : Bool :=
  match op.run s with
  | .error (.fault _) _ => true
  | _ => false

theorem Operation.eq_of_error (bounded : s.Bounded) {e : MemoryError}
    (run : op.run s = .error e s') : s' = s := by
  rcases op.run_cases bounded with ⟨s'', ok, -⟩ | ⟨e', error, -⟩
  · cases run.symm.trans ok
  · cases run.symm.trans error
    rfl

theorem Operation.hazardous_of_stops (bounded : s.Bounded) (stopped : op.stops s = true) :
    op.Hazardous s := by
  unfold stops at stopped
  rcases op.run_cases bounded with ⟨s', run, -⟩ | ⟨e, run, hazard⟩
  · rw [run] at stopped
    cases stopped
  · rw [run] at stopped
    cases e with
    | fault cause => exact hazard cause rfl
    | _ => cases stopped

/-- A scan leaves the buffer only if the top of the stack lies between two words, and the last
    word is not all there. -/
theorem Operation.stops_cases (bounded : s.Bounded) (stopped : op.stops s = true)
    (near : ∀ depth, op = .peek depth → depth < 2 ^ 60) :
    (∃ visitor, op = .visit visitor) ∧ s.sp % 4 ≠ 0 ∧ s.bytes.size < 4 * ((s.sp + 3) / 4) := by
  have hazard := hazardous_of_stops bounded stopped
  have fits := bounded.sp_le
  cases op with
  | peek depth =>
    have near := near depth rfl
    unfold Hazardous sizeLimit at hazard
    omega
  | visit visitor =>
    obtain ⟨chain, -, offset, live, sticks⟩ := hazard
    obtain ⟨aligned, below⟩ := mem_liveOffsets_lt live
    exact ⟨⟨visitor, rfl⟩, by omega, by omega⟩
  | _ => exact hazard.elim

/-- **Every run of the stack.**  The pointers stay in the buffer and an operation that reports an
    error changes nothing.  If the frames that were dropped named bases at word boundaries, the
    pointers are at word boundaries too.  Only a scan can leave the buffer, and only if the top of
    the stack is not at a word boundary. -/
theorem stack_stays_inside {size : Nat} (small : size < wordLimit - 1) (ops : List Operation) :
    let s := (new size).runAll ops
    s.bytes.size = size ∧ s.sp ≤ size ∧ (s.bp = noFrame ∨ s.bp.toNat ≤ size) ∧
      ((new size).LinksAligned ops → s.sp % 4 = 0 ∧ (s.bp = noFrame ∨ s.bp.toNat % 4 = 0)) ∧
      ∀ op : Operation, (∀ depth, op = .peek depth → depth < 2 ^ 60) →
        (∀ e s', op.run s = .error e s' → s' = s) ∧
        (op.stops s = true → (∃ visitor, op = .visit visitor) ∧ s.sp % 4 ≠ 0 ∧
          size < 4 * ((s.sp + 3) / 4)) := by
  intro s
  have start := bounded_new small
  have bounded : s.Bounded := (start.runAll ops).1
  have size_eq : s.bytes.size = size := (start.runAll ops).2.trans Array.size_replicate
  refine ⟨size_eq, size_eq ▸ bounded.sp_le, ?_, ?_, ?_⟩
  · by_cases open_ : s.bp = noFrame
    · exact Or.inl open_
    · have := bounded.bp_le open_
      exact Or.inr (by omega)
  · intro links
    have aligned := (aligned_new size).runAll start links
    exact ⟨aligned.sp, Classical.or_iff_not_imp_left.2 aligned.bp⟩
  · intro op near
    refine ⟨fun e s' => Operation.eq_of_error bounded, fun stopped => ?_⟩
    rw [← size_eq]
    exact Operation.stops_cases bounded stopped near

/-- A call that takes an argument, has another function called and leaves a result. -/
def plainCall : List Operation :=
  [.push 7, .newFrame 1 ⟨9⟩, .setLocal 0 ⟨3⟩, .push 3, .newFrame 0 ⟨12⟩, .discardFrame,
    .setArg 0 ⟨4⟩]

theorem plainCall_stays_inside :
    let s := (new 40).runAll plainCall
    (s.sp % 4 = 0 ∧ (s.bp = noFrame ∨ s.bp.toNat % 4 = 0)) ∧
      ∀ visitor, (Operation.visit visitor).stops s = false := by
  intro s
  obtain ⟨-, -, -, aligned, each⟩ := stack_stays_inside (show 40 < wordLimit - 1 by decide) plainCall
  have links : (new 40).LinksAligned plainCall := by
    simp only [plainCall, LinksAligned, reduceCtorEq, false_implies, true_and, and_true,
      forall_const]
    have caller : ∀ s₁ : FrameStack, s₁ = (new 40).runAll (plainCall.take 5) →
        s₁.bytes.word? s₁.bp.toNat = some 4 := by
      rintro _ rfl
      decide +kernel
    intro link linked _
    cases (caller _ rfl).symm.trans linked
    rfl
  refine ⟨aligned links, fun visitor => ?_⟩
  rw [Bool.eq_false_iff]
  intro stopped
  exact ((each (.visit visitor) nofun).2 stopped).2.1 (aligned links).1

/-! ### A link between two words -/

/-- Replaces the link of a frame by 5, drops the frame, which leaves the base at 5, and drops the
    frame that seems to be there, which leaves the top at 5. -/
def strayLink : List Operation :=
  [.push 0, .push 0x00FFFFFF, .push 0xFF000000, .push 0, .newFrame 0 ⟨0⟩, .pop, .pop, .push 5,
    .push 0, .discardFrame, .discardFrame]

/-- **A link that is not at a word boundary** is taken for one.  The base pointer and then the
    stack pointer end up between two words, and once the stack is full again a scan reads past its
    end. -/
theorem stray_link_leaves_buffer :
    ((new 25).runAll (strayLink.take 10)).bp = 5 ∧ ((new 25).runAll strayLink).sp = 5 ∧
      (Operation.visit fun _ w => w).stops
        ((new 25).runAll (strayLink ++ List.replicate 5 (.push 0))) = true := by
  decide +kernel

end ObjectMachine.FrameStack
