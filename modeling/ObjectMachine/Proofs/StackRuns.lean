/-
  ObjectMachine/Proofs/StackRuns.lean
  ===================================
  **Runs of the stack** — every operation of the frame stack, what it does to any stack at
  all, and sequences of them.

  Nothing is assumed of the frames: a program can overwrite its own bookkeeping, and
  `Effect` says what each operation makes of the result.  Whatever holds of all stacks that
  operations lead to is proved from `Effect`, one case per operation.
-/
import ObjectMachine.Memory.FrameStack
import ObjectMachine.Proofs.ByteRanges
import ObjectMachine.Proofs.Runs

namespace ObjectMachine

/-- Writing twice in a row is writing once. -/
theorem Bytes.overwrite_append (b : Bytes) (start : Nat) (xs ys : List UInt8) :
    (b.overwrite start xs).overwrite (start + xs.length) ys = b.overwrite start (xs ++ ys) := by
  induction xs generalizing b start with
  | nil => rw [overwrite]; rfl
  | cons x xs ih =>
    rw [overwrite, List.cons_append, overwrite, ← ih, List.length_cons]
    congr 1
    omega

namespace FrameStack

/-! ### Operations -/

/-- What can be done with a stack.  References are pushed and popped as words. -/
inductive Operation where
  | push (w : Word)
  | pop
  | peek (depth : Nat)
  | newFrame (locals : Word) (returnTo : CodeAddress)
  | discardFrame
  | arg (index : Word)
  | setArg (index : Word) (value : Ref)
  | getLocal (index : Word)
  | setLocal (index : Word) (value : Ref)
  /-- Passes the live words to a visitor, who makes of each what he likes, knowing which he has
      seen before. -/
  | visit (visitor : List Word → Word → Word)

/-- A visitor that remembers the words it has seen. -/
def recalling (visitor : List Word → Word → Word) (w : Word) :
    StateT (List Word) (Except Fault) Word := do
  let seen ← get
  set (seen ++ [w])
  return visitor seen w

namespace Operation

/-- Carries out an operation; what it gives is left out. -/
def run : Operation → Run Unit
  | push w => FrameStack.push w
  | pop => do let _ ← FrameStack.pop
  | peek depth => fun s =>
    match s.peek depth with
    | .ok _ => .ok () s
    | .error e => .error e s
  | newFrame locals returnTo => FrameStack.newFrame locals returnTo
  | discardFrame => do let _ ← FrameStack.discardFrame
  | arg index => do let _ ← FrameStack.arg index
  | setArg index value => FrameStack.setArg index value
  | getLocal index => do let _ ← FrameStack.getLocal index
  | setLocal index value => FrameStack.setLocal index value
  | visit visitor => fun s =>
    match (s.visitWords (recalling visitor)).run [] with
    | .ok (s', _) => .ok () s'
    | .error cause => .error (.fault cause) s

/-- The stack after an operation, whether it succeeded or failed. -/
def after (op : Operation) (s : FrameStack) : FrameStack :=
  match op.run s with
  | .ok _ s' => s'
  | .error _ s' => s'

end Operation

/-- The stack after a sequence of operations, each of which may have failed. -/
def runAll (s : FrameStack) (ops : List Operation) : FrameStack := ops.foldl (fun s op => op.after s) s

/-! ### Effects -/

/-- The bytes of a new frame: the caller's base, the return address, null locals. -/
def frameBytes (bp : Word) (returnTo : CodeAddress) (locals : Nat) : List UInt8 :=
  bp.bytes ++ returnTo.word.bytes ++ (List.replicate locals Ref.null.word.bytes).flatten

/-- **What an operation does** when it succeeds. -/
inductive Effect (s : FrameStack) : Operation → FrameStack → Prop where
  | push {w : Word} (room : s.sp + 4 ≤ s.bytes.size) :
      Effect s (.push w) ⟨s.bytes.overwrite s.sp w.bytes, s.sp + 4, s.bp⟩
  | pop (some_ : 4 ≤ s.sp) : Effect s .pop ⟨s.bytes, s.sp - 4, s.bp⟩
  | peek {depth : Nat} : Effect s (.peek depth) s
  | newFrame {locals : Word} {returnTo : CodeAddress}
      (room : s.sp + (8 + 4 * locals.toNat) ≤ s.bytes.size) :
      Effect s (.newFrame locals returnTo)
        ⟨s.bytes.overwrite s.sp (frameBytes s.bp returnTo locals.toNat),
          s.sp + (8 + 4 * locals.toNat), UInt32.ofNat s.sp⟩
  | discardFrame {link : Word} (open_ : s.bp ≠ noFrame) (above : s.bp.toNat + 8 ≤ s.sp)
      (linked : s.bytes.word? s.bp.toNat = some link)
      (outer : link ≠ noFrame → link.toNat + 8 ≤ s.bp.toNat) :
      Effect s .discardFrame
        ⟨s.bytes.wipe s.bp.toNat (s.sp - s.bp.toNat), s.bp.toNat, link⟩
  | arg {index : Word} : Effect s (.arg index) s
  | setArg {index : Word} {value : Ref} {offset : Nat} (slot : s.argOffset index = .ok offset) :
      Effect s (.setArg index value) ⟨s.bytes.overwrite offset value.word.bytes, s.sp, s.bp⟩
  | getLocal {index : Word} : Effect s (.getLocal index) s
  | setLocal {index : Word} {value : Ref} {offset : Nat} (slot : s.localOffset index = .ok offset) :
      Effect s (.setLocal index value) ⟨s.bytes.overwrite offset value.word.bytes, s.sp, s.bp⟩
  | visit {visitor : List Word → Word → Word} {chain : Chain} {bytes : Bytes}
      (frames : s.chain = .ok chain) (size : bytes.size = s.bytes.size)
      (elsewhere : ∀ p n, (∀ offset ∈ s.liveOffsets chain, p + n ≤ offset ∨ offset + 4 ≤ p) →
        bytes.Same p s.bytes p n) :
      Effect s (.visit visitor) ⟨bytes, s.sp, s.bp⟩

/-- Stack pointer and base pointer lie in the buffer, whose offsets fit a word. -/
structure Bounded (s : FrameStack) : Prop where
  addressable : s.bytes.size < wordLimit - 1
  sp_le : s.sp ≤ s.bytes.size
  bp_le : s.bp ≠ noFrame → s.bp.toNat + 8 ≤ s.bytes.size

/-- The top of the stack as the base of a new frame. -/
theorem Bounded.toNat_sp {s : FrameStack} (bounded : s.Bounded) :
    (UInt32.ofNat s.sp).toNat = s.sp := by
  have fits := bounded.sp_le
  have small := bounded.addressable
  unfold wordLimit at small
  rw [UInt32.toNat_ofNat']
  exact Nat.mod_eq_of_lt (by omega)

theorem bounded_new {size : Nat} (h : size < wordLimit - 1) : (new size).Bounded where
  addressable := by rw [new, Array.size_replicate]; exact h
  sp_le := Nat.zero_le _
  bp_le open_ := absurd rfl open_

/-! ### Equations -/

section Equations

variable {s : FrameStack}

theorem store_eq {offset : Nat} (w : Word) (fits : offset + 4 ≤ s.bytes.size) :
    store offset w s = .ok () { s with bytes := s.bytes.overwrite offset w.bytes } := if_pos fits

theorem load_eq {offset : Nat} {w : Word} (word : s.bytes.word? offset = some w) :
    load offset s = .ok w s := by
  unfold load
  rw [word]

theorem push_eq (w : Word) (room : s.sp + 4 ≤ s.bytes.size) :
    push w s = .ok () ⟨s.bytes.overwrite s.sp w.bytes, s.sp + 4, s.bp⟩ := by
  unfold push
  rw [run_get_bind, run_get_bind, if_neg (by omega)]
  dsimp only
  rw [run_bind_ok (store_eq w room)]
  rfl

theorem push_overflow (w : Word) (full : s.bytes.size < s.sp + 4) :
    push w s = .error .stackOverflow s := by
  unfold push
  rw [run_get_bind, run_get_bind, if_pos full]
  rfl

theorem pop_eq {w : Word} (some_ : 4 ≤ s.sp) (word : s.bytes.word? (s.sp - 4) = some w) :
    pop s = .ok w ⟨s.bytes, s.sp - 4, s.bp⟩ := by
  unfold pop
  rw [run_get_bind, if_neg (by omega)]
  exact load_eq word

theorem pushMany_eq (w : Word) (n : Nat) :
    ∀ {s : FrameStack}, s.sp + 4 * n ≤ s.bytes.size → pushMany w n s =
      .ok () ⟨s.bytes.overwrite s.sp (List.replicate n w.bytes).flatten, s.sp + 4 * n, s.bp⟩ := by
  induction n with
  | zero =>
    intro s _
    rw [List.replicate_zero, List.flatten_nil, Bytes.overwrite]
    rfl
  | succ n ih =>
    intro s room
    have rest : (⟨s.bytes.overwrite s.sp w.bytes, s.sp + 4, s.bp⟩ : FrameStack).sp + 4 * n ≤
        (s.bytes.overwrite s.sp w.bytes).size := by
      rw [Bytes.size_overwrite]
      dsimp only
      omega
    rw [pushMany, run_bind_ok (push_eq w (by omega)), ih rest]
    dsimp only
    rw [List.replicate_succ, List.flatten_cons, ← Bytes.overwrite_append, Word.length_bytes,
      show s.sp + 4 + 4 * n = s.sp + 4 * (n + 1) by omega]

theorem newFrame_eq (locals : Word) (returnTo : CodeAddress)
    (room : s.sp + (8 + 4 * locals.toNat) ≤ s.bytes.size) :
    newFrame locals returnTo s =
      .ok () ⟨s.bytes.overwrite s.sp (frameBytes s.bp returnTo locals.toNat),
        s.sp + (8 + 4 * locals.toNat), UInt32.ofNat s.sp⟩ := by
  have both : (s.bytes.overwrite s.sp s.bp.bytes).overwrite (s.sp + 4) returnTo.word.bytes =
      s.bytes.overwrite s.sp (s.bp.bytes ++ returnTo.word.bytes) := Bytes.overwrite_append ..
  have all : (s.bytes.overwrite s.sp (s.bp.bytes ++ returnTo.word.bytes)).overwrite (s.sp + 8)
      (List.replicate locals.toNat Ref.null.word.bytes).flatten =
      s.bytes.overwrite s.sp (frameBytes s.bp returnTo locals.toNat) := Bytes.overwrite_append ..
  have linked := push_eq s.bp (show s.sp + 4 ≤ s.bytes.size by omega)
  have returning : push returnTo.word ⟨s.bytes.overwrite s.sp s.bp.bytes, s.sp + 4, s.bp⟩ =
      .ok () ⟨s.bytes.overwrite s.sp (s.bp.bytes ++ returnTo.word.bytes), s.sp + 8, s.bp⟩ := by
    rw [push_eq _ (by rw [Bytes.size_overwrite]; dsimp only; omega), ← both]
  have filled : pushMany Ref.null.word locals.toNat
      ⟨s.bytes.overwrite s.sp (s.bp.bytes ++ returnTo.word.bytes), s.sp + 8, s.bp⟩ =
      .ok () ⟨s.bytes.overwrite s.sp (frameBytes s.bp returnTo locals.toNat),
        s.sp + (8 + 4 * locals.toNat), s.bp⟩ := by
    rw [pushMany_eq _ _ (by rw [Bytes.size_overwrite]; dsimp only; omega), ← all, ← Nat.add_assoc]
  unfold newFrame
  rw [run_get_bind, run_get_bind, if_neg (by omega)]
  dsimp only
  rw [run_get_bind, run_bind_ok linked, run_bind_ok returning, run_bind_ok filled]
  rfl

theorem newFrame_overflow (locals : Word) (returnTo : CodeAddress)
    (full : s.bytes.size < s.sp + (8 + locals.toNat * 4)) :
    newFrame locals returnTo s = .error .stackOverflow s := by
  unfold newFrame
  rw [run_get_bind, run_get_bind, if_pos full]
  rfl

theorem discardFrame_eq {link returnTo : Word} (bounded : s.Bounded) (open_ : s.bp ≠ noFrame)
    (above : s.bp.toNat + 8 ≤ s.sp) (linked : s.bytes.word? s.bp.toNat = some link)
    (outer : link ≠ noFrame → link.toNat + 8 ≤ s.bp.toNat)
    (returning : s.bytes.word? (s.bp.toNat + 4) = some returnTo) :
    discardFrame s = .ok (if link = noFrame then none else some ⟨returnTo⟩)
      ⟨s.bytes.wipe s.bp.toNat (s.sp - s.bp.toNat), s.bp.toNat, link⟩ := by
  have wiped : wipeFrom s.bp.toNat s =
      .ok () { s with bytes := s.bytes.wipe s.bp.toNat (s.sp - s.bp.toNat) } :=
    if_pos ⟨by omega, bounded.sp_le⟩
  have intact : ¬(link ≠ noFrame ∧ s.bp.toNat < link.toNat + 8) := by
    rintro ⟨linked, corrupt⟩
    have := outer linked
    omega
  unfold discardFrame
  rw [run_get_bind, if_neg open_]
  dsimp only
  rw [run_get_bind, if_neg (by omega), run_bind_ok (load_eq linked), if_neg intact,
    run_bind_ok (load_eq returning), run_bind_ok wiped]
  rfl

end Equations

/-! ### Scanning -/

theorem chain_isOk {s : FrameStack} (fits : s.sp ≤ s.bytes.size) : ∃ chain, s.chain = .ok chain := by
  have from_ : ∀ budget bp, ∃ chain, s.chainFrom budget bp = .ok chain := by
    intro budget
    induction budget with
    | zero => exact fun bp => ⟨_, rfl⟩
    | succ budget ih =>
      intro bp
      rw [chainFrom]
      split
      · exact ⟨_, rfl⟩
      split
      · exact ⟨_, rfl⟩
      rename_i below
      obtain ⟨link, word⟩ := (Bytes.word?_eq_some_iff_le s.bytes bp.toNat).2 (by omega)
      obtain ⟨chain, rest⟩ := ih link
      rw [word]
      dsimp only
      rw [rest]
      exact ⟨_, rfl⟩
  exact from_ _ _

/-- The frames that links lead to from a base pointer, innermost first: each lies below the one
    that names it. -/
inductive Linked (b : Bytes) : Word → List Nat → Prop where
  | none : Linked b noFrame []
  | frame {bp link : Word} {bases : List Nat} (open_ : bp ≠ noFrame) (aligned : bp.toNat % 4 = 0)
      (linked : b.word? bp.toNat = some link) (outer : Linked b link bases)
      (above : ∀ base ∈ bases, base + 8 ≤ bp.toNat) : Linked b bp (bp.toNat :: bases)

namespace Linked

variable {b : Bytes} {bp : Word} {bases : List Nat}

/-- Each frame takes two words. -/
theorem length_le (h : Linked b bp bases) :
    ∀ top, (∀ base ∈ bases, base + 8 ≤ top) → 8 * bases.length ≤ top := by
  induction h with
  | none => simp
  | frame _ _ _ _ above ih =>
    intro top below
    have first := below _ List.mem_cons_self
    have rest := ih _ above
    rw [List.length_cons]
    omega

theorem aligned (h : Linked b bp bases) : ∀ base ∈ bases, base % 4 = 0 := by
  induction h with
  | none => simp
  | frame _ aligned _ _ _ ih =>
    intro base mem
    rcases List.mem_cons.1 mem with rfl | mem
    · exact aligned
    · exact ih base mem

/-- No frame is open, or the innermost one lies at the base pointer. -/
theorem innermost (h : Linked b bp bases) :
    (bp = noFrame ∧ bases = []) ∨ ∃ link outer, bp ≠ noFrame ∧ bases = bp.toNat :: outer ∧
      b.word? bp.toNat = some link ∧ Linked b link outer ∧
      ∀ base ∈ outer, base + 8 ≤ bp.toNat := by
  cases h with
  | none => exact Or.inl ⟨rfl, rfl⟩
  | frame open_ _ linked outer above => exact Or.inr ⟨_, _, open_, rfl, linked, outer, above⟩

theorem le_bp (h : Linked b bp bases) : ∀ base ∈ bases, bp ≠ noFrame ∧ base ≤ bp.toNat := by
  cases h with
  | none => simp
  | frame open_ _ _ _ above =>
    intro base mem
    refine ⟨open_, ?_⟩
    rcases List.mem_cons.1 mem with rfl | mem
    · exact Nat.le_refl _
    · have := above base mem
      omega

/-- A change that keeps the links keeps the frames. -/
theorem congr {b' : Bytes} (h : Linked b bp bases)
    (same : ∀ base ∈ bases, b'.word? base = b.word? base) : Linked b' bp bases := by
  induction h with
  | none => exact .none
  | frame open_ aligned linked _ above ih =>
    refine .frame open_ aligned ((same _ List.mem_cons_self).trans linked) (ih ?_) above
    exact fun base mem => same base (List.mem_cons_of_mem _ mem)

/-- The walk along the links finds the frames. -/
theorem chainFrom_eq {s : FrameStack} (h : Linked s.bytes bp bases)
    (below : ∀ base ∈ bases, base + 8 ≤ s.sp) :
    ∀ budget, bases.length < budget → s.chainFrom budget bp = .ok ⟨bases, Option.none⟩ := by
  induction h with
  | none =>
    intro budget enough
    cases budget with
    | zero => cases enough
    | succ budget => rw [chainFrom, if_pos rfl]
  | @frame bp link bases open_ _ linked _ _ ih =>
    intro budget enough
    cases budget with
    | zero => cases enough
    | succ budget =>
      have first := below _ List.mem_cons_self
      have rest := fun base mem => below base (List.mem_cons_of_mem _ mem)
      rw [List.length_cons] at enough
      rw [chainFrom, if_neg open_, if_neg (by omega), linked]
      dsimp only
      rw [ih rest budget (by omega)]
      rfl

theorem chain_eq {s : FrameStack} (h : Linked s.bytes s.bp bases)
    (below : ∀ base ∈ bases, base + 8 ≤ s.sp) : s.chain = .ok ⟨bases, Option.none⟩ := by
  refine h.chainFrom_eq below _ ?_
  have := h.length_le _ below
  omega

end Linked

theorem mem_liveOffsets_lt {s : FrameStack} {chain : Chain} {offset : Nat}
    (live : offset ∈ s.liveOffsets chain) : offset % 4 = 0 ∧ offset < s.sp := by
  unfold liveOffsets at live
  obtain ⟨mem, -⟩ := List.mem_filter.1 live
  obtain ⟨k, hk, rfl⟩ := List.mem_map.1 mem
  rw [List.mem_range] at hk
  omega

/-- Visiting some words changes nothing beside them. -/
theorem foldlM_visitAt_cases (visitor : List Word → Word → Word) (offsets : List Nat) :
    ∀ (s : FrameStack) (seen : List Word),
      (∃ bytes seen', (offsets.foldlM (visitAt (recalling visitor)) s).run seen =
          .ok (⟨bytes, s.sp, s.bp⟩, seen') ∧ bytes.size = s.bytes.size ∧
        ∀ p n, (∀ offset ∈ offsets, p + n ≤ offset ∨ offset + 4 ≤ p) →
          bytes.Same p s.bytes p n) ∨
      (offsets.foldlM (visitAt (recalling visitor)) s).run seen = .error .outOfBuffer ∧
        ∃ offset ∈ offsets, s.bytes.size < offset + 4 := by
  induction offsets with
  | nil => exact fun s seen => Or.inl ⟨s.bytes, seen, rfl, rfl, fun p n _ => Bytes.Same.refl _ p n⟩
  | cons offset offsets ih =>
    intro s seen
    rw [List.foldlM_cons]
    by_cases fits : offset + 4 ≤ s.bytes.size
    · obtain ⟨w, word⟩ := (Bytes.word?_eq_some_iff_le s.bytes offset).2 fits
      -- the visitor may leave the word alone, which writes nothing
      obtain ⟨bytes, one, size, same⟩ : ∃ bytes : Bytes,
          (visitAt (recalling visitor) s offset).run seen =
            .ok (⟨bytes, s.sp, s.bp⟩, seen ++ [w]) ∧ bytes.size = s.bytes.size ∧
          ∀ p n, p + n ≤ offset ∨ offset + 4 ≤ p → bytes.Same p s.bytes p n := by
        unfold visitAt
        rw [word]
        by_cases kept : visitor seen w = w
        · refine ⟨s.bytes, ?_, rfl, fun p n _ => Bytes.Same.refl _ p n⟩
          change (if visitor seen w = w then pure s else _ : StateT _ _ _).run _ = _
          rw [if_pos kept]
          rfl
        · refine ⟨s.bytes.overwrite offset (visitor seen w).bytes, ?_, Bytes.size_overwrite _ _ _,
            fun p n apart => Bytes.same_overwrite _ _ _ p n fits apart⟩
          change (if visitor seen w = w then _ else _ : StateT _ _ _).run _ = _
          rw [if_neg kept]
          rfl
      have run : ∀ next : FrameStack → StateT (List Word) (Except Fault) FrameStack,
          (visitAt (recalling visitor) s offset >>= next).run seen =
            (next ⟨bytes, s.sp, s.bp⟩).run (seen ++ [w]) := by
        intro next
        rw [StateT.run_bind, one]
        rfl
      rw [run]
      rcases ih ⟨bytes, s.sp, s.bp⟩ (seen ++ [w]) with
        ⟨bytes', seen', rest, size', same'⟩ | ⟨failed, out⟩
      · refine Or.inl ⟨bytes', seen', rest, size'.trans size, ?_⟩
        intro p n apart
        exact (same' p n fun o ho => apart o (List.mem_cons_of_mem _ ho)).trans
          (same p n (apart offset List.mem_cons_self))
      · obtain ⟨o, ho, sticks⟩ := out
        refine Or.inr ⟨failed, o, List.mem_cons_of_mem _ ho, ?_⟩
        rw [← size]
        exact sticks
    · refine Or.inr ⟨?_, offset, List.mem_cons_self, by omega⟩
      have missing : s.bytes.word? offset = none := by
        cases word : s.bytes.word? offset with
        | none => rfl
        | some w => exact absurd ((Bytes.word?_eq_some_iff_le _ _).1 ⟨w, word⟩) fits
      unfold visitAt
      rw [missing]
      rfl

/-! ### One operation -/

/-- Operations that can stop the machine: looking further down than the host's integers reach,
    and visiting a word that is cut off by the end of the buffer. -/
def Operation.Hazardous (s : FrameStack) : Operation → Prop
  | .peek depth => sizeLimit ≤ (depth + 1) * 4
  | .visit _ => ∃ chain, s.chain = .ok chain ∧ ∃ offset ∈ s.liveOffsets chain,
      s.bytes.size < offset + 4
  | _ => False

section Slots

variable {s : FrameStack} {index : Word} {offset : Nat}

theorem argOffset_bounds (slot : s.argOffset index = .ok offset) :
    s.bp ≠ noFrame ∧ offset + 4 * (1 + index.toNat) = s.bp.toNat ∧ offset + 4 ≤ s.bytes.size := by
  unfold argOffset at slot
  dsimp only at slot
  split at slot
  · cases slot
  split at slot
  · cases slot
  split at slot
  · cases slot
  cases slot
  rename_i open_ _ _
  exact ⟨open_, by omega, by omega⟩

theorem localOffset_bounds (slot : s.localOffset index = .ok offset) :
    s.bp ≠ noFrame ∧ offset = s.bp.toNat + 8 + 4 * index.toNat ∧ offset + 4 ≤ s.bytes.size := by
  unfold localOffset at slot
  dsimp only at slot
  split at slot
  · cases slot
  split at slot
  · cases slot
  cases slot
  rename_i open_ _
  exact ⟨open_, rfl, by omega⟩

theorem argOffset_error {e : MemoryError} (slot : s.argOffset index = .error e) (cause : Fault) :
    e ≠ .fault cause := by
  unfold argOffset at slot
  dsimp only at slot
  split at slot
  · cases slot
    simp
  split at slot
  · cases slot
    simp
  split at slot <;> cases slot
  simp

theorem localOffset_error {e : MemoryError} (slot : s.localOffset index = .error e)
    (cause : Fault) : e ≠ .fault cause := by
  unfold localOffset at slot
  dsimp only at slot
  split at slot
  · cases slot
    simp
  split at slot <;> cases slot
  simp

variable {f : FrameStack → Except MemoryError Nat}
variable (inside : ∀ offset, f s = .ok offset → offset + 4 ≤ s.bytes.size)
  (harmless : ∀ e, f s = .error e → ∀ cause, e ≠ .fault cause)

theorem offsetBy_ok (slot : f s = .ok offset) : offsetBy f s = .ok offset s := by
  unfold offsetBy
  rw [slot]

theorem offsetBy_error {e : MemoryError} (slot : f s = .error e) : offsetBy f s = .error e s := by
  unfold offsetBy
  rw [slot]

include inside harmless

theorem readSlot_cases :
    (∃ r, (do return ⟨← load (← offsetBy f)⟩ : Run Ref) s = .ok r s) ∨
      ∃ e, (do return ⟨← load (← offsetBy f)⟩ : Run Ref) s = .error e s ∧
        ∀ cause, e ≠ .fault cause := by
  cases slot : f s with
  | ok offset =>
    obtain ⟨w, word⟩ := (Bytes.word?_eq_some_iff_le s.bytes offset).2 (inside offset slot)
    refine Or.inl ⟨⟨w⟩, ?_⟩
    rw [run_bind_ok (offsetBy_ok slot), run_bind_ok (load_eq word)]
    rfl
  | error e => exact Or.inr ⟨e, run_bind_error (offsetBy_error slot), harmless e slot⟩

theorem writeSlot_cases (w : Word) :
    (∃ offset, f s = .ok offset ∧ (do store (← offsetBy f) w : Run Unit) s =
        .ok () ⟨s.bytes.overwrite offset w.bytes, s.sp, s.bp⟩) ∨
      ∃ e, (do store (← offsetBy f) w : Run Unit) s = .error e s ∧ ∀ cause, e ≠ .fault cause := by
  cases slot : f s with
  | ok offset =>
    refine Or.inl ⟨offset, rfl, ?_⟩
    rw [run_bind_ok (offsetBy_ok slot)]
    exact store_eq w (inside offset slot)
  | error e => exact Or.inr ⟨e, run_bind_error (offsetBy_error slot), harmless e slot⟩

end Slots

/-- A word above the bottom of the stack can be looked at. -/
theorem peek_fault {s : FrameStack} (fits : s.sp ≤ s.bytes.size) {depth : Nat} {cause : Fault}
    (stopped : s.peek depth = .error (.fault cause)) : sizeLimit ≤ (depth + 1) * 4 := by
  by_cases far : sizeLimit ≤ (depth + 1) * 4
  · exact far
  · unfold peek at stopped
    dsimp only at stopped
    rw [if_neg far] at stopped
    split at stopped
    · cases stopped
    · obtain ⟨w, word⟩ := (Bytes.word?_eq_some_iff_le s.bytes (s.sp - (depth + 1) * 4)).2 (by omega)
      rw [word] at stopped
      cases stopped

theorem discardFrame_cases {s : FrameStack} (bounded : s.Bounded) :
    (∃ returned link, discardFrame s = .ok returned
        ⟨s.bytes.wipe s.bp.toNat (s.sp - s.bp.toNat), s.bp.toNat, link⟩ ∧
      Effect s .discardFrame ⟨s.bytes.wipe s.bp.toNat (s.sp - s.bp.toNat), s.bp.toNat, link⟩) ∨
      ∃ e, discardFrame s = .error e s ∧ ∀ cause, e ≠ .fault cause := by
  by_cases open_ : s.bp = noFrame
  · refine Or.inr ⟨.stackUnderflow, ?_, nofun⟩
    unfold discardFrame
    rw [run_get_bind, if_pos open_]
    rfl
  by_cases above : s.sp < s.bp.toNat + 8
  · refine Or.inr ⟨.stackUnderflow, ?_, nofun⟩
    unfold discardFrame
    rw [run_get_bind, if_neg open_]
    dsimp only
    rw [run_get_bind, if_pos above]
    rfl
  have fits := bounded.sp_le
  obtain ⟨link, linked⟩ := (Bytes.word?_eq_some_iff_le s.bytes s.bp.toNat).2 (by omega)
  obtain ⟨returnTo, returning⟩ := (Bytes.word?_eq_some_iff_le s.bytes (s.bp.toNat + 4)).2 (by omega)
  by_cases corrupt : link ≠ noFrame ∧ s.bp.toNat < link.toNat + 8
  · refine Or.inr ⟨.corruptFrame s.bp, ?_, nofun⟩
    unfold discardFrame
    rw [run_get_bind, if_neg open_]
    dsimp only
    rw [run_get_bind, if_neg above, run_bind_ok (load_eq linked), if_pos corrupt]
    rfl
  · have outer : link ≠ noFrame → link.toNat + 8 ≤ s.bp.toNat := by
      intro linked
      exact Nat.le_of_not_lt fun low => corrupt ⟨linked, low⟩
    have above : s.bp.toNat + 8 ≤ s.sp := by omega
    exact Or.inl ⟨_, link, discardFrame_eq bounded open_ above linked outer returning,
      .discardFrame open_ above linked outer⟩

/-- **One operation** on any stack within bounds: it has its effect, or it reports an error and
    has none; only hazardous ones can stop the machine. -/
theorem Operation.run_cases (op : Operation) {s : FrameStack} (bounded : s.Bounded) :
    (∃ s', op.run s = .ok () s' ∧ Effect s op s') ∨
      ∃ e, op.run s = .error e s ∧ ∀ cause, e = .fault cause → op.Hazardous s := by
  have fits := bounded.sp_le
  cases op with
  | push w =>
    by_cases room : s.sp + 4 ≤ s.bytes.size
    · exact Or.inl ⟨_, push_eq w room, .push room⟩
    · refine Or.inr ⟨.stackOverflow, ?_, nofun⟩
      change FrameStack.push w s = _
      unfold FrameStack.push
      rw [run_get_bind, run_get_bind, if_pos (by omega)]
      rfl
  | pop =>
    by_cases some_ : 4 ≤ s.sp
    · obtain ⟨w, word⟩ := (Bytes.word?_eq_some_iff_le s.bytes (s.sp - 4)).2 (by omega)
      exact Or.inl ⟨_, run_bind_ok (pop_eq some_ word), .pop some_⟩
    · refine Or.inr ⟨.stackUnderflow, ?_, nofun⟩
      have empty : FrameStack.pop s = .error .stackUnderflow s := by
        unfold FrameStack.pop
        rw [run_get_bind, if_pos (by omega)]
        rfl
      exact run_bind_error empty
  | peek depth =>
    unfold Operation.run
    dsimp only
    cases seen : s.peek depth with
    | ok w => exact Or.inl ⟨s, rfl, .peek⟩
    | error e => exact Or.inr ⟨e, rfl, fun cause eq => peek_fault fits (eq ▸ seen)⟩
  | newFrame locals returnTo =>
    by_cases room : s.sp + (8 + 4 * locals.toNat) ≤ s.bytes.size
    · exact Or.inl ⟨_, newFrame_eq locals returnTo room, .newFrame room⟩
    · refine Or.inr ⟨.stackOverflow, ?_, nofun⟩
      change FrameStack.newFrame locals returnTo s = _
      unfold FrameStack.newFrame
      rw [run_get_bind, run_get_bind, if_pos (by omega)]
      rfl
  | discardFrame =>
    rcases discardFrame_cases bounded with ⟨returned, link, run, effect⟩ | ⟨e, run, harmless⟩
    · exact Or.inl ⟨_, run_bind_ok run, effect⟩
    · exact Or.inr ⟨e, run_bind_error run, fun cause eq => absurd eq (harmless cause)⟩
  | arg index =>
    rcases readSlot_cases (f := (·.argOffset index)) (fun _ slot => (argOffset_bounds slot).2.2)
      (fun _ => argOffset_error) with ⟨r, run⟩ | ⟨e, run, harmless⟩
    · exact Or.inl ⟨s, run_bind_ok run, .arg⟩
    · exact Or.inr ⟨e, run_bind_error run, fun cause eq => absurd eq (harmless cause)⟩
  | setArg index value =>
    rcases writeSlot_cases (f := (·.argOffset index)) (fun _ slot => (argOffset_bounds slot).2.2)
      (fun _ => argOffset_error) value.word with ⟨offset, slot, run⟩ | ⟨e, run, harmless⟩
    · exact Or.inl ⟨_, run, .setArg slot⟩
    · exact Or.inr ⟨e, run, fun cause eq => absurd eq (harmless cause)⟩
  | getLocal index =>
    rcases readSlot_cases (f := (·.localOffset index)) (fun _ slot => (localOffset_bounds slot).2.2)
      (fun _ => localOffset_error) with ⟨r, run⟩ | ⟨e, run, harmless⟩
    · exact Or.inl ⟨s, run_bind_ok run, .getLocal⟩
    · exact Or.inr ⟨e, run_bind_error run, fun cause eq => absurd eq (harmless cause)⟩
  | setLocal index value =>
    rcases writeSlot_cases (f := (·.localOffset index)) (fun _ slot => (localOffset_bounds slot).2.2)
      (fun _ => localOffset_error) value.word with ⟨offset, slot, run⟩ | ⟨e, run, harmless⟩
    · exact Or.inl ⟨_, run, .setLocal slot⟩
    · exact Or.inr ⟨e, run, fun cause eq => absurd eq (harmless cause)⟩
  | visit visitor =>
    obtain ⟨chain, frames⟩ := chain_isOk fits
    have run : (s.visitWords (recalling visitor)).run [] =
        ((s.liveOffsets chain).foldlM (visitAt (recalling visitor)) s).run [] := by
      unfold visitWords
      rw [frames]
    unfold Operation.run
    dsimp only
    rw [run]
    rcases foldlM_visitAt_cases visitor (s.liveOffsets chain) s [] with
      ⟨bytes, seen, ok, size, same⟩ | ⟨failed, out⟩
    · rw [ok]
      exact Or.inl ⟨_, rfl, .visit frames size same⟩
    · rw [failed]
      exact Or.inr ⟨_, rfl, fun _ _ => ⟨chain, frames, out⟩⟩

theorem Operation.after_cases (op : Operation) {s : FrameStack} (bounded : s.Bounded) :
    Effect s op (op.after s) ∨ op.after s = s := by
  unfold after
  rcases op.run_cases bounded with ⟨s', run, effect⟩ | ⟨e, run, -⟩
  · rw [run]
    exact Or.inl effect
  · rw [run]
    exact Or.inr rfl

/-! ### Bounds -/

variable {s s' : FrameStack} {op : Operation}

theorem length_frameBytes (bp : Word) (returnTo : CodeAddress) (locals : Nat) :
    (frameBytes bp returnTo locals).length = 8 + 4 * locals := by
  have null : Ref.null.word.bytes.length = 4 := rfl
  simp only [frameBytes, List.length_append, Word.length_bytes, List.length_flatten,
    List.map_replicate, List.sum_replicate_nat, null]
  omega

/-- The bookkeeping of a new frame can be read back. -/
theorem word?_frameBytes {b : Bytes} {start : Nat} (bp : Word) (returnTo : CodeAddress) (locals : Nat)
    (room : start + (8 + 4 * locals) ≤ b.size) :
    (b.overwrite start (frameBytes bp returnTo locals)).word? start = some bp ∧
      (b.overwrite start (frameBytes bp returnTo locals)).word? (start + 4) = some returnTo.word := by
  have length := length_frameBytes bp returnTo locals
  have split : b.overwrite start (frameBytes bp returnTo locals) =
      ((b.overwrite start bp.bytes).overwrite (start + 4) returnTo.word.bytes).overwrite (start + 8)
        (List.replicate locals Ref.null.word.bytes).flatten := by
    have four : (start + 4) = start + bp.bytes.length := rfl
    have eight : (start + 8) = start + (bp.bytes ++ returnTo.word.bytes).length := rfl
    rw [four, Bytes.overwrite_append, eight, Bytes.overwrite_append]
    rfl
  have rest : (List.replicate locals Ref.null.word.bytes).flatten.length = 4 * locals := by
    simp only [frameBytes, List.length_append, Word.length_bytes] at length
    omega
  have locals_fit : start + 8 + (List.replicate locals Ref.null.word.bytes).flatten.length ≤
      ((b.overwrite start bp.bytes).overwrite (start + 4) returnTo.word.bytes).size := by
    rw [Bytes.size_overwrite, Bytes.size_overwrite, rest]
    omega
  have return_fits : start + 4 + returnTo.word.bytes.length ≤ (b.overwrite start bp.bytes).size := by
    rw [Bytes.size_overwrite, Word.length_bytes]
    omega
  rw [split, Bytes.word?_overwrite_of_apart _ _ _ _ locals_fit (Or.inl (by omega)),
    Bytes.word?_overwrite_of_apart _ _ _ _ locals_fit (Or.inl (by omega)),
    Bytes.word?_overwrite_of_apart _ _ _ _ return_fits (Or.inl (by omega))]
  exact ⟨Bytes.word?_overwrite_self _ _ _ (by omega), Bytes.word?_overwrite_self _ _ _ return_fits⟩

theorem Effect.size_eq (effect : Effect s op s') : s'.bytes.size = s.bytes.size := by
  cases effect with
  | pop | peek | arg | getLocal => rfl
  | push | newFrame | setArg | setLocal => exact Bytes.size_overwrite _ _ _
  | discardFrame => exact Bytes.size_wipe _ _ _
  | visit _ size => exact size

theorem Effect.bounded (bounded : s.Bounded) (effect : Effect s op s') : s'.Bounded := by
  have fits := bounded.sp_le
  have size := effect.size_eq
  have small := bounded.addressable
  refine ⟨by rw [size]; exact small, ?sp_le, ?bp_le⟩
  case sp_le =>
    rw [size]
    cases effect with
    | push room => exact room
    | newFrame room => exact room
    | pop => exact Nat.le_trans (Nat.sub_le _ _) fits
    | discardFrame open_ => exact Nat.le_trans (Nat.le_add_right _ 8) (bounded.bp_le open_)
    | peek | arg | getLocal | setArg | setLocal | visit => exact fits
  case bp_le =>
    rw [size]
    cases effect with
    | newFrame room =>
      intro _
      have := bounded.toNat_sp
      dsimp only
      omega
    | discardFrame open_ above linked outer =>
      intro open_'
      have := outer open_'
      have := bounded.bp_le open_
      dsimp only
      omega
    | push | pop | peek | arg | getLocal | setArg | setLocal | visit => exact bounded.bp_le

/-- An operation writes nothing to the `n` bytes from `p` on. -/
def Operation.Spares (s : FrameStack) (p n : Nat) : Operation → Prop
  | .push _ | .newFrame _ _ => p + n ≤ s.sp
  | .discardFrame => p + n ≤ s.bp.toNat
  | .setArg index _ => ∀ offset, s.argOffset index = .ok offset → p + n ≤ offset ∨ offset + 4 ≤ p
  | .setLocal index _ => ∀ offset, s.localOffset index = .ok offset →
      p + n ≤ offset ∨ offset + 4 ≤ p
  | .visit _ => ∀ chain, s.chain = .ok chain → ∀ offset ∈ s.liveOffsets chain,
      p + n ≤ offset ∨ offset + 4 ≤ p
  | _ => True

/-- **Writes are local.** -/
theorem Effect.same {p n : Nat} (bounded : s.Bounded) (effect : Effect s op s')
    (spares : op.Spares s p n) : s'.bytes.Same p s.bytes p n := by
  have fits := bounded.sp_le
  cases effect with
  | pop | peek | arg | getLocal => exact Bytes.Same.refl _ p n
  | push room => exact Bytes.same_overwrite _ _ _ p n room (Or.inl spares)
  | newFrame room =>
    refine Bytes.same_overwrite _ _ _ p n ?_ (Or.inl spares)
    rw [length_frameBytes]
    exact room
  | discardFrame open_ above =>
    exact Bytes.same_wipe _ _ _ p n (by omega) (Or.inl spares)
  | setArg slot =>
    exact Bytes.same_overwrite _ _ _ p n (argOffset_bounds slot).2.2 (spares _ slot)
  | setLocal slot =>
    exact Bytes.same_overwrite _ _ _ p n (localOffset_bounds slot).2.2 (spares _ slot)
  | visit frames _ elsewhere => exact elsewhere p n (spares _ frames)

theorem Operation.same_after {p n : Nat} (bounded : s.Bounded) (spares : op.Spares s p n) :
    (op.after s).bytes.Same p s.bytes p n := by
  rcases op.after_cases bounded with effect | same
  · exact effect.same bounded spares
  · rw [same]
    exact Bytes.Same.refl _ p n

theorem Operation.bounded_after (op : Operation) (bounded : s.Bounded) : (op.after s).Bounded := by
  rcases op.after_cases bounded with effect | same
  · exact effect.bounded bounded
  · rw [same]
    exact bounded

theorem Operation.bounded_end (op : Operation) (bounded : s.Bounded) :
    (endState (op.run s)).Bounded := by
  have after := op.bounded_after bounded
  unfold Operation.after at after
  cases run : op.run s <;> rw [run] at after <;> exact after

theorem Operation.size_after (op : Operation) (bounded : s.Bounded) :
    (op.after s).bytes.size = s.bytes.size := by
  rcases op.after_cases bounded with effect | same
  · exact effect.size_eq
  · rw [same]

theorem Bounded.runAll (bounded : s.Bounded) (ops : List Operation) :
    (s.runAll ops).Bounded ∧ (s.runAll ops).bytes.size = s.bytes.size := by
  induction ops generalizing s with
  | nil => exact ⟨bounded, rfl⟩
  | cons op ops ih =>
    obtain ⟨rest, size⟩ := ih (op.bounded_after bounded)
    exact ⟨rest, size.trans (op.size_after bounded)⟩

end FrameStack

end ObjectMachine
