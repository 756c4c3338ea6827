/-
  ObjectMachine/Proofs/MethodResults.lean
  =======================================
  **What methods return** — from the last operand that a method takes to the state of the machine
  after the return.

  A method that makes an object may bring about a collection, so that everything that was there at
  the call is carried over to new places.  A method that finds its result, or stores something,
  leaves all else exactly as it was.
-/
import ObjectMachine.Proofs.LibraryContents
import ObjectMachine.Proofs.MethodCalls

namespace ObjectMachine

open ObjectGraph

namespace Machine

open Memory

variable {m q m' : Machine} {past : CodeAddress} {operands : List Word} {code : List Instruction}
  {entryBase : Word} {objects : Set Ref} {bases : List Nat}

/-! ### Results -/

/-- **A new object is the result.**  It is on top of what was on the stack at the call, and
    everything else is as it was then, moved at most; so are the operands of the call. -/
structure ReturnsNew (m : Machine) (past : CodeAddress) (objects : Set Ref) (bases : List Nat)
    (classId : Option ClassId) (content : Content) (m' : Machine) : Prop where
  host : m' = { m with memory := m'.memory }
  program : m'.memory.program = (m.memory.code, past, m.memory.methods, m.memory.constants)
  sp : m'.memory.stack.sp = m.memory.stack.sp + 4
  bp : m'.memory.stack.bp = m.memory.stack.bp
  result : ∃ φ r, m.memory.Carries m'.memory objects bases φ ∧ m'.memory.peekRef 0 = .ok r ∧
    m'.memory.Has ⟨r, classId, content⟩ ∧
    (∀ a, (m.memory.graph objects).Reachable a → φ a ≠ r) ∧
    ∀ depth a, m.memory.stack.HasWords (depth + 1) → m.memory.peekRef depth = .ok a →
      m'.memory.peekRef (depth + 1) = .ok ((m.memory.graph objects).follow φ a)

/-- **A value is the result.**  It is on top of what was on the stack at the call, and nothing else
    has changed. -/
structure ReturnsValue (m : Machine) (past : CodeAddress) (value : Ref) (m' : Machine) : Prop where
  same : ∃ journal, m' = { m with memory := { m.memory with
    stack := m'.memory.stack, pc := past, journal := journal } }
  sp : m'.memory.stack.sp = m.memory.stack.sp + 4
  bp : m'.memory.stack.bp = m.memory.stack.bp
  below : ∀ p n, p + n ≤ m.memory.stack.sp → m'.memory.stack.bytes.Same p m.memory.stack.bytes p n
  result : m'.memory.peekRef 0 = .ok value

/-- The machine with a field of an object set. -/
def withField (m : Machine) (r : Ref) (field : Nat) (value : Ref) : Machine :=
  { m with memory := { m.memory with
    space := m.memory.space.mapBytes (Object.setField · r field value.word) } }

/-- **An element is set**, there is no result, and nothing else has changed. -/
structure Sets (m : Machine) (past : CodeAddress) (bases : List Nat) (r : Ref) (field : Nat) (value : Ref)
    (m' : Machine) : Prop where
  same : ∃ journal, m' = { m with memory := { (m.withField r field value).memory with
    stack := m'.memory.stack, pc := past, journal := journal } }
  stack : m.memory.stack.Closed m.memory.stack.sp bases m'.memory.stack
  bp : m'.memory.stack.bp = m.memory.stack.bp

section Sets

variable {r c : Ref} {index : Nat} {elements : List Ref} {value : Ref}
  (sets : m.Sets past bases r index value m')

include sets

theorem Sets.sound (sound : m.memory.space.Sound) : m'.memory.space.Sound := by
  obtain ⟨journal, same⟩ := sets.same
  have stored := SemiSpaces.Sound.mapBytes (f := (Object.setField · r index value.word)) sound
    (Bytes.size_overwrite _ _ _)
  rw [same]
  exact stored

theorem Sets.known_eq : m'.known = m.known := by
  obtain ⟨journal, same⟩ := sets.same
  rw [same]

/-- The operands are still there. -/
theorem Sets.peekRef_eq {depth : Nat} {a : Ref} (found : m.memory.peekRef depth = .ok a) :
    m'.memory.peekRef depth = .ok a := by
  obtain ⟨deep, word⟩ := word_of_peek found
  have sp := sets.stack.sp
  have same := sets.stack.same (m.memory.stack.sp - (depth + 1) * 4) 4 (by omega)
  refine peekRef_of_word ?_ (by omega) ?_
  · have fits := sets.stack.nested.bounded.sp_le
    have addressable := sets.stack.nested.bounded.addressable
    have limits : wordLimit < sizeLimit := by decide
    omega
  · rw [sp]
    exact (same.word? 0 (by omega)).trans word

variable (wf : m.memory.WellFormed objects) (inside : index < elements.length)

include wf inside

/-- The Array has the element. -/
theorem Sets.has {classId : Option ClassId} (has : m.memory.Has ⟨r, classId, .refs elements⟩) :
    m'.memory.Has ⟨r, classId, .refs (elements.set index value)⟩ := by
  obtain ⟨c, known, holds⟩ := has
  obtain ⟨journal, same⟩ := sets.same
  have stored := holds.setField wf inside (v := value)
  rw [same]
  exact ⟨c, known, stored.low, stored.high, stored.shows_⟩

/-- The other objects are as they were. -/
theorem Sets.holds_other (holds : m.memory.Holds r c (.refs elements)) (object : r ∈ objects) {d e : Ref}
    {content : Content} (other : d ∈ objects) (ne : d ≠ r) (kept : m.memory.Holds d e content) :
    m'.memory.Holds d e content := by
  obtain ⟨journal, same⟩ := sets.same
  have stored := wf.holds_setField object holds inside kept other ne (v := value)
  rw [same]
  exact ⟨stored.low, stored.high, stored.shows_⟩

end Sets

/-- **About to return a new object**: it is the only operand of the method. -/
structure Returning (m : Machine) (past : CodeAddress) (objects : Set Ref) (bases : List Nat)
    (classId : Option ClassId) (content : Content) (q : Machine) : Prop where
  host : q = { m with memory := q.memory }
  code : q.memory.code = m.memory.code
  methods : q.memory.methods = m.memory.methods
  constants : q.memory.constants = m.memory.constants
  unread : ∃ more, q.unread = Instruction.encodeAll [.retTop] ++ more
  nested : q.memory.stack.Nested (m.memory.stack.sp :: bases)
  sp : q.memory.stack.sp = m.memory.stack.sp + 12
  returnTo : q.memory.stack.bytes.word? (m.memory.stack.sp + 4) = some past.word
  result : ∃ φ r, q.memory.stack.bytes.word? (m.memory.stack.sp + 8) = some r.word ∧
    m.memory.Carries q.memory objects bases φ ∧ q.memory.Has ⟨r, classId, content⟩ ∧
    ∀ a, (m.memory.graph objects).Reachable a → φ a ≠ r

variable {classId : Option ClassId} {content : Content}

/-- **Returning it.** -/
theorem Returning.runs (returning : m.Returning past objects bases classId content q)
    (nested : m.memory.stack.Nested bases) (entered : entryBase.toNat ∈ bases)
    (small : m.memory.code.bytes.size < wordLimit) :
    ∃ m', Runs entryBase [.retTop] q m' ∧ m.ReturnsNew past objects bases classId content m' := by
  obtain ⟨φ, r, result, carries, has, fresh⟩ := returning.result
  obtain ⟨more, unread⟩ := returning.unread
  obtain ⟨pc, fetched, -⟩ :=
    fetch_eq (show q.memory.code.bytes.size < wordLimit from returning.code ▸ small)
      (unread.trans (List.append_assoc _ _ _))
  have other : q.memory.stack.bp ≠ entryBase := by
    rintro rfl
    have base := (Memory.base_eq returning.nested).2
    have := nested.below _ entered
    omega
  obtain ⟨s, returned, closed⟩ := @step_retTop_ok
    ((q.withPc pc).noted (.executed q.memory.pc .retTop)) past entryBase m.memory.stack.sp bases r
    returning.nested (List.ne_nil_of_mem entered) other returning.sp returning.returnTo result
  have size : s.bytes.size = m.memory.stack.bytes.size := closed.size.trans carries.stack.size
  have room : s.sp + 4 ≤ s.bytes.size := by
    have fits := returning.nested.bounded.sp_le
    have sp := returning.sp
    rw [closed.sp, closed.size]
    change m.memory.stack.sp + 4 ≤ q.memory.stack.bytes.size
    omega
  refine ⟨_, .step fetched ((advance_of_fetch fetched).trans returned) .done, ?_⟩
  have bp : s.bp = m.memory.stack.bp := bp_eq_of_nested closed.nested nested
  have stack : m.memory.stack.Carries (s.pushed r.word) bases ((m.memory.graph objects).follow φ) := by
    refine carries.stack.above nested ((Bytes.size_overwrite _ _ _).trans closed.size) ?_
    intro p n below
    have pushed : (s.pushed r.word).bytes.Same p s.bytes p n :=
      Bytes.same_overwrite _ _ _ p n room (Or.inl (closed.sp.symm ▸ below))
    exact pushed.trans (closed.same p n below)
  refine ⟨?host, ?program, congrArg (· + 4) closed.sp, bp, φ, r, { carries with stack := stack }, ?top, ?has,
    fresh, fun depth a words found => ?operand⟩
  case host =>
    rw [returning.host]
    rfl
  case program =>
    change (q.memory.code, past, q.memory.methods, q.memory.constants) = _
    rw [returning.code, returning.methods, returning.constants]
  case top =>
    refine peekRef_eq (Nat.le_add_left 4 _) ?_
    exact Bytes.word?_overwrite_self _ _ _ room
  case has =>
    obtain ⟨c, found, holds⟩ := has
    exact ⟨c, found, ⟨holds.low, holds.high, holds.shows_⟩⟩
  case operand =>
    exact peekRef_of_carries stack nested words found (congrArg (· + 4) closed.sp)

/-- The live words inside a call without operands are those at the call. -/
theorem liveWords_inCall {s t : FrameStack} (inCall : s.InCall past [] t) (nested : s.Nested bases) :
    ∀ a ∈ t.liveWords, a ∈ s.liveWords := by
  intro a live
  have nested' := inCall.nested nested
  rw [nested'.liveWords_eq, List.mem_filterMap] at live
  obtain ⟨offset, live, word⟩ := live
  obtain ⟨aligned, below, free⟩ := (FrameStack.mem_liveOffsets_iff nested'.aligned offset).1 live
  have sp : t.sp = s.sp + 8 := inCall.sp
  have here := free s.sp List.mem_cons_self
  have top := nested.aligned
  have low : offset + 4 ≤ s.sp := by omega
  rw [nested.liveWords_eq, List.mem_filterMap]
  refine ⟨offset, ?_, ?_⟩
  · rw [FrameStack.mem_liveOffsets_iff nested.aligned]
    exact ⟨aligned, low, fun base mem => free base (List.mem_cons_of_mem _ mem)⟩
  · rw [← word, show t.bytes.word? offset = s.bytes.word? offset from
      (inCall.same offset 4 low).word? 0 (by omega)]

section Results

variable (wf : m.memory.WellFormed objects) (nested : m.memory.stack.Nested bases)

include nested in
theorem InCall.readable (inCall : m.InCall past operands code q) : q.memory.stack.Readable :=
  (inCall.stack.nested nested).whole.readable

include wf nested

theorem InCall.wellFormed (inCall : m.InCall past [] code q) : q.memory.WellFormed objects := by
  obtain ⟨t, pc, journal, rfl, stack⟩ := inCall.exists_eq
  have inside := wf.withStack fun a live =>
    wf.graph.root a (List.mem_append_right _ (liveWords_inCall stack nested a live))
  exact ⟨inside.sound, inside.graph⟩

/-- **Making the result.** -/
theorem InCall.makes (inCall : m.InCall past [] [.retTop] q)
    (room : m.memory.stack.sp + 12 ≤ m.memory.stack.bytes.size) {make : Run Ref} {c : Ref}
    (known : m.memory.classOrNull classId = .ok c) (plain : content.values = [])
    (made : Makes make q objects c content) :
    (∃ need available q', (make >>= fun r => (pushRef r : Run Unit)) q =
      .error (.memory (.outOfMemory need available)) q') ∨
    ∃ q', (make >>= fun r => (pushRef r : Run Unit)) q = .ok () q' ∧
      m.Returning past objects bases classId content q' := by
  have wf_q := inCall.wellFormed wf nested
  obtain ⟨more, unread⟩ := inCall.unread
  obtain ⟨t, pc, journal, rfl, stack⟩ := inCall.exists_eq
  have nested_t := stack.nested nested
  obtain ⟨m₁, ψ, copied, program, outcome⟩ := made
  let start : Memory := { m.memory with pc := pc, journal := journal }
  have wf₀ : start.WellFormed objects := ⟨wf.sound, wf.graph⟩
  have self : start.stack.Carries start.stack bases ((start.graph objects).follow id) :=
    wf₀.carries_self.stack
  have work : Working start objects bases { start with stack := t } objects id [] :=
    wf₀.working.withStack (self.above nested stack.size stack.same) fun a live =>
      wf.graph.root a (List.mem_append_right _ (liveWords_inCall stack nested a live))
  have le : m.memory.stack.sp ≤ t.sp := by
    rw [stack.sp]
    omega
  have work₁ := work.copied wf₀ nested (show t.Nested ([m.memory.stack.sp] ++ bases) from nested_t) le
    (fun base mem => (List.mem_singleton.1 mem).ge) nofun copied program
  rcases outcome with ⟨need, available, run⟩ | ⟨r, m₂, run, adds⟩
  · exact Or.inl ⟨need, available, _, run_bind_error run⟩
  have class₁ : m₁.classOrNull classId =
      .ok ((({ start with stack := t } : Memory).graph objects).follow ψ c) := by
    rw [copied.classOrNull_eq wf_q]
    exact congrArg (Except.map _) known
  have work₂ := work₁.adds wf₀ class₁ adds (by rw [plain]; nofun)
  -- the frame of the method is as it was, wherever its objects are
  obtain ⟨nested₁, sp₁, bp₁⟩ := copied.nested nested_t
  have frame : m₁.stack.bytes.word? (m.memory.stack.sp + 4) = some past.word := by
    have moved := wf_q.carries_self.copied nested_t wf_q wf_q (fun a reach => reach.object)
      (show t.Nested ([] ++ m.memory.stack.sp :: bases) from nested_t) (Nat.le_refl _) nofun copied
    exact (moved.stack.frames _ List.mem_cons_self _ (Or.inr rfl)).trans stack.returnTo
  have sp₂ : m₂.stack.sp = m.memory.stack.sp + 8 := by
    rw [adds.stack, sp₁]
    exact stack.sp
  have size₂ : m₂.stack.bytes.size = m.memory.stack.bytes.size := work₂.carries.stack.size
  have room₂ : m₂.stack.sp + 4 ≤ m₂.stack.bytes.size := by omega
  have nested₂ : m₂.stack.Nested (m.memory.stack.sp :: bases) := adds.stack ▸ nested₁
  refine Or.inr ⟨{ m with memory := { m₂ with stack := m₂.stack.pushed r.word } },
    (run_bind_ok run).trans (Lockstep.onMemory_ok (Memory.pushRef_eq room₂)), ?_⟩
  have program₂ : m₂.program = (m.memory.code, pc, m.memory.methods, m.memory.constants) := work₂.program
  obtain ⟨code₂, pc₂, methods₂, constants₂⟩ := Memory.program_eq_iff.1 program₂
  refine
    { host := rfl
      code := code₂
      methods := methods₂
      constants := constants₂
      unread := ⟨more, ?unread⟩
      nested := nested₂.pushed room₂ r.word
      sp := congrArg (· + 4) sp₂
      returnTo := ?returnTo
      result := ⟨ψ ∘ id, r, ?result, ?carries, ?has, ?fresh⟩ }
  case unread =>
    refine Eq.trans ?_ unread
    change m₂.code.bytes.toList.drop m₂.pc.word.toNat = _
    rw [code₂, pc₂]
    rfl
  case returnTo =>
    refine (Bytes.word?_overwrite_of_apart _ _ _ _ room₂ (Or.inl (by omega))).trans ?_
    rw [adds.stack]
    exact frame
  case result =>
    rw [← sp₂]
    exact Bytes.word?_overwrite_self _ _ _ room₂
  case carries =>
    have below : m.memory.stack.Carries (m₂.stack.pushed r.word) bases
        ((m.memory.graph objects).follow (ψ ∘ id)) := by
      refine work₂.carries.stack.above nested (Bytes.size_overwrite _ _ _) ?_
      intro p n below
      have below : p + n ≤ m.memory.stack.sp := below
      exact Bytes.same_overwrite _ _ _ p n room₂ (Or.inl (by omega))
    exact { work₂.carries with stack := below }
  case has =>
    obtain ⟨d, found, holds⟩ := work₂.has ⟨r, classId, content⟩ (List.mem_singleton_self _)
    exact ⟨d, found, ⟨holds.low, holds.high, holds.shows_⟩⟩
  case fresh =>
    intro a reach
    exact work₂.fresh a reach ⟨r, classId, content⟩ (List.mem_singleton_self _)

end Results

/-- **The rest of a method** that makes a new object: there is no room for it, or it is
    returned. -/
theorem InCall.answers {i : Instruction} {act : Run Unit} {make : Run Ref} {q₁ q₂ q₃ : Machine} {c : Ref}
    (fetched : fetch q = .ok i q₁) (advanced : advance entryBase q = (act >>= fun _ => pure .next) q₂)
    (performed : act q₂ = (make >>= fun r => (pushRef r : Run Unit)) q₃)
    (inCall : m.InCall past [] [.retTop] q₃) (wf : m.memory.WellFormed objects)
    (nested : m.memory.stack.Nested bases) (entered : entryBase.toNat ∈ bases)
    (small : m.memory.code.bytes.size < wordLimit)
    (room : m.memory.stack.sp + 12 ≤ m.memory.stack.bytes.size)
    (known : m.memory.classOrNull classId = .ok c) (plain : content.values = [])
    (made : Makes make q₃ objects c content) :
    (∃ need available, Breaks entryBase (.memory (.outOfMemory need available)) [i, .retTop] q) ∨
      ∃ m', Runs entryBase [i, .retTop] q m' ∧ m.ReturnsNew past objects bases classId content m' := by
  have advanced : advance entryBase q = _ := advanced.trans (run_bind_congr performed)
  rcases inCall.makes wf nested room known plain made with ⟨need, available, q', failed⟩ |
    ⟨q', pushed, returning⟩
  · exact Or.inl ⟨need, available, .here fetched (advanced.trans (run_bind_error failed))⟩
  · obtain ⟨m', runs, returned⟩ := returning.runs nested entered small
    exact Or.inr ⟨m', .step fetched (advanced.trans (run_bind_ok pushed)) runs, returned⟩

section Return

variable {value : Ref} (nested : m.memory.stack.Nested bases) (entered : entryBase.toNat ∈ bases)
include nested entered

/-- The frame of the method is not the one that the run began with. -/
theorem InCall.bp_ne (inCall : m.InCall past operands code q) : q.memory.stack.bp ≠ entryBase := by
  rintro rfl
  have := nested.below _ entered
  rw [inCall.stack.bp, nested.bounded.toNat_sp] at this
  omega

variable (small : m.memory.code.bytes.size < wordLimit)
include small

/-- **The rest of a method** that returns what it has found. -/
theorem InCall.returns (inCall : m.InCall past [value.word] [.retTop] q) :
    ∃ m', Runs entryBase [.retTop] q m' ∧ m.ReturnsValue past value m' := by
  obtain ⟨q₁, q₂, fetched, advanced, inCall₂⟩ := inCall.advance_eq small entryBase
  obtain ⟨s, returned, closed⟩ := step_retTop_ok (inCall₂.stack.nested nested) (List.ne_nil_of_mem entered)
    (inCall₂.bp_ne nested entered) inCall₂.stack.sp inCall₂.stack.returnTo (inCall₂.stack.words 0 _ rfl)
  have room : s.sp + 4 ≤ s.bytes.size := by
    have fits := inCall₂.stack.fits
    have sp : q₂.memory.stack.sp = m.memory.stack.sp + 12 := inCall₂.stack.sp
    rw [closed.sp, closed.size]
    omega
  have bp : s.bp = m.memory.stack.bp := bp_eq_of_nested closed.nested nested
  refine ⟨_, .step fetched (advanced.trans returned) .done, ?_, congrArg (· + 4) closed.sp, bp, ?_, ?_⟩
  · obtain ⟨pc, journal, same⟩ := inCall₂.same
    refine ⟨journal, ?_⟩
    rw [same]
  · intro p n below
    have pushed : (s.pushed value.word).bytes.Same p s.bytes p n :=
      Bytes.same_overwrite _ _ _ p n room (Or.inl (closed.sp.symm ▸ below))
    exact pushed.trans ((closed.same p n below).trans (inCall₂.stack.same p n below))
  · refine peekRef_eq (Nat.le_add_left 4 _) ?_
    exact Bytes.word?_overwrite_self _ _ _ room

/-- **The rest of a method** that returns nothing. -/
theorem InCall.leaves (inCall : m.InCall past [] [.ret] q) : ∃ s journal, Runs entryBase [.ret] q
      { m with memory := { m.memory with stack := s, pc := past, journal := journal } } ∧
    m.memory.stack.Closed m.memory.stack.sp bases s := by
  obtain ⟨q₁, q₂, fetched, advanced, inCall₂⟩ := inCall.advance_eq small entryBase
  obtain ⟨s, left, closed⟩ := leave_ok (inCall₂.stack.nested nested) (List.ne_nil_of_mem entered)
    (inCall₂.bp_ne nested entered) inCall₂.stack.returnTo
  obtain ⟨pc, journal, same⟩ := inCall₂.same
  refine ⟨s, journal, .step fetched (advanced.trans (left.trans ?_)) .done, closed.nested, closed.sp,
    closed.size.trans inCall₂.stack.size, ?_⟩
  · rw [same]
  · intro p n below
    exact (closed.same p n below).trans (inCall₂.stack.same p n below)

end Return

/-! ### Operands -/

section Operands

variable {r : Ref}

/-- What the memory has at the call, it has inside of it. -/
theorem InCall.has (inCall : m.InCall past operands code q) {item : Item} (has : m.memory.Has item) :
    q.memory.Has item := by
  obtain ⟨t, pc, journal, rfl, -⟩ := inCall.exists_eq
  obtain ⟨c, found, holds⟩ := has
  exact ⟨c, found, ⟨holds.low, holds.high, holds.shows_⟩⟩

theorem InCall.known_eq (inCall : m.InCall past operands code q) : q.known = m.known := by
  obtain ⟨t, pc, journal, rfl, -⟩ := inCall.exists_eq
  rfl

/-- A service of the library is performed. -/
theorem InCall.invoke_eq (inCall : m.InCall past operands code q) (library : m.HasLibrary)
    {entry : ServiceEntry} (listed : entry ∈ ServiceTable.standard.entries) :
    ∃ q', invoke entry.id q = perform entry.service q' ∧ m.InCall past operands code q' := by
  have same : q.services = m.services := by
    obtain ⟨t, pc, journal, rfl, -⟩ := inCall.exists_eq
    rfl
  refine ⟨_, Machine.invoke_eq ?_, inCall.noted _⟩
  rw [same]
  exact library.services entry listed

theorem InCall.classOrNull_eq (inCall : m.InCall past operands code q) (classId : Option ClassId) :
    q.memory.classOrNull classId = m.memory.classOrNull classId := by
  obtain ⟨t, pc, journal, rfl, -⟩ := inCall.exists_eq
  rfl

theorem InCall.sound (inCall : m.InCall past operands code q) (sound : m.memory.space.Sound) :
    q.memory.space.Sound := by
  obtain ⟨t, pc, journal, rfl, -⟩ := inCall.exists_eq
  exact sound

theorem InCall.popInteger_ok (inCall : m.InCall past (operands ++ [r.word]) code q)
    (sound : m.memory.space.Sound) {value : Word}
    (has : m.memory.Has ⟨r, classId, .bytes value.bytes⟩) :
    ∃ q', popInteger q = .ok value q' ∧ m.InCall past operands code q' := by
  obtain ⟨q', popped, inCall'⟩ := inCall.popRef_ok
  obtain ⟨_, -, holds⟩ := inCall'.has has
  have read : integerValue q'.memory r = .ok value := holds.integerValue_eq (inCall'.sound sound)
  exact ⟨q', (run_bind_ok popped).trans (Machine.query_ok read), inCall'⟩

theorem InCall.popString_ok (inCall : m.InCall past (operands ++ [r.word]) code q)
    (sound : m.memory.space.Sound) {text : List UInt8}
    (has : m.memory.Has ⟨r, classId, .bytes text⟩) :
    ∃ q', popString q = .ok text q' ∧ m.InCall past operands code q' := by
  obtain ⟨q', popped, inCall'⟩ := inCall.popRef_ok
  obtain ⟨_, -, holds⟩ := inCall'.has has
  have read : stringValue q'.memory r = .ok text := holds.stringValue_eq (inCall'.sound sound)
  exact ⟨q', (run_bind_ok popped).trans (Machine.query_ok read), inCall'⟩

end Operands

/-- An object has been added without a collection: the call might as well have begun with it. -/
theorem InCall.adds (inCall : m.InCall past operands code q) {M : Memory} {r c : Ref}
    (adds : q.memory.Adds M r c content) :
    InCall { m with memory := { M with stack := m.memory.stack } } past operands code
      { q with memory := M } := by
  obtain ⟨more, unread⟩ := inCall.unread
  obtain ⟨pc, journal, same⟩ := inCall.same
  obtain ⟨code_eq, pc_eq, -, -⟩ := Memory.program_eq_iff.1 adds.program
  refine ⟨adds.stack ▸ inCall.stack, ⟨M.pc, M.journal, ?_⟩, more, ?_⟩
  · rw [same]
  · refine Eq.trans ?_ unread
    change M.code.bytes.toList.drop M.pc.word.toNat = _
    rw [code_eq, pc_eq]
    rfl

/-! ### New objects -/

section Makes

variable (wf : m.memory.WellFormed objects) (nested : m.memory.stack.Nested bases)
  (inCall : m.InCall past [] code q) {c : Ref}
include wf nested inCall

theorem InCall.newInteger_makes (known : m.memory.classOrNull m.known.integer = .ok c) (value : Word) :
    Makes (newInteger value) q objects c (.bytes value.bytes) := by
  rw [← inCall.classOrNull_eq, ← inCall.known_eq] at known
  exact Machine.newInteger_makes (inCall.wellFormed wf nested) (inCall.readable nested) known value

theorem InCall.newString_makes (known : m.memory.classOrNull m.known.string = .ok c) {text : List UInt8}
    (short : text.length < wordLimit) : Makes (newString text) q objects c (.bytes text) := by
  rw [← inCall.classOrNull_eq, ← inCall.known_eq] at known
  exact Machine.newString_makes (inCall.wellFormed wf nested) (inCall.readable nested) known short

end Makes

/-! ### The library -/

/-- The dictionaries of the classes are carried along. -/
theorem methodNumbers_of_carries {m m' : Memory} {φ : Ref → Ref} (wf : m.WellFormed objects)
    (nested : m.stack.Nested bases) (carries : m.Carries m' objects bases φ) {id : ClassId}
    {numbers : List Word} (found : methodNumbers m id = .ok numbers) :
    methodNumbers m' id = .ok numbers := by
  -- the stack, the methods and the constants are as a collection would leave them
  let moved : Memory := { m' with
    stack := m.stack.replaceWords ((m.graph objects).follow φ) (m.stack.liveOffsets ⟨bases, none⟩)
    methods := m.methods
    constants := m.constants }
  have copied : m.CopiedTo moved objects φ := ⟨carries.sound, carries.size, carries.copy,
    carries.classes, carries.dictionaries, ⟨_, nested.chain_eq, rfl⟩, rfl, rfl⟩
  obtain ⟨a, entry, found⟩ := exists_of_bind_eq_ok found
  obtain ⟨view, class_, found⟩ := exists_of_bind_eq_ok found
  obtain ⟨dictionary, seen, found⟩ := exists_of_bind_eq_ok found
  have entry := Lockstep.liftMemory_eq_ok entry
  have seen := Lockstep.liftMemory_eq_ok seen
  have table := mem_of_classRef entry
  have object : a ∈ objects := by
    by_contra absent
    obtain ⟨-, e, failed, -⟩ := view_absent wf copied
      (List.mem_append_left _ (List.mem_append_left _ (Array.mem_toList_iff.2 table))) absent
    rw [classView_error failed] at class_
    cases class_
  obtain ⟨c, c', before, after, -, -, -, methods, listed⟩ := classView_copy wf copied table object
  cases class_.symm.trans before
  have table' := listed.resolve_left (ne_null_of_view seen)
  have object' : view.methods ∈ objects := wf.object_of_view
    (List.mem_append_left _ (List.mem_append_right _ (Array.mem_toList_iff.2 table'))) seen
  obtain ⟨v, v', looked, looks, words⟩ := fieldWords_copy wf copied table' object'
  cases seen.symm.trans looked
  change methodNumbers moved id = _
  unfold methodNumbers
  rw [copied.classRef_eq, entry]
  change (do
    let c ← classView moved ((m.graph objects).follow φ a)
    return (← liftMemory (moved.view c.methods)).fieldWords) = _
  rw [follow_of_mem object, after, ok_bind, methods, follow_of_mem object', looks]
  change Except.ok v'.fieldWords = _
  rw [words]
  exact found

/-- **The library is kept** where everything is carried along. -/
theorem KeepsLibrary.carried {m₀ m : Machine} {m' : Memory} {φ : Ref → Ref} (keeps : KeepsLibrary m₀ m)
    (wf : m.memory.WellFormed objects) (nested : m.memory.stack.Nested bases)
    (carries : m.memory.Carries m' objects bases φ) (code : m'.code = m.memory.code)
    (methods : m'.methods = m.memory.methods) : KeepsLibrary m₀ { m with memory := m' } where
  known := keeps.known
  services := keeps.services
  code := code ▸ keeps.code
  fits := code ▸ keeps.fits
  methods := methods ▸ keeps.methods
  dictionaries id numbers found := methodNumbers_of_carries wf nested carries (keeps.dictionaries id numbers found)

end Machine

end ObjectMachine
