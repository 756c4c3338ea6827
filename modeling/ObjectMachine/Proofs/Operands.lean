/-
  ObjectMachine/Proofs/Operands.lean
  ==================================
  **Operands** — the words that instructions and services take from the stack, and the objects
  that these lead to.

  An operand above the bookkeeping of the innermost frame is a root, so where it leads to an
  object at all, this is one of the graph.  What such an object holds is what is read from it.
-/
import ObjectMachine.Proofs.FrameSteps
import ObjectMachine.Proofs.RootedWork

namespace ObjectMachine

open ObjectGraph

/-! ### Words -/

/-- A word of the innermost frame lies above the bookkeeping of all frames. -/
theorem FrameStack.Nested.above_frames {s : FrameStack} {bases : List Nat} (nested : s.Nested bases)
    (words : s.HasWords 1) : ∀ base ∈ bases, base + 12 ≤ s.sp := by
  intro base mem
  obtain ⟨open_, le⟩ := nested.linked.le_bp base mem
  have := words open_
  omega

/-- A live word is a word below the stack pointer, whatever the frames are. -/
theorem FrameStack.word?_of_liveWords {s : FrameStack} {a : Ref} (live : a ∈ s.liveWords) :
    ∃ offset, offset % 4 = 0 ∧ offset < s.sp ∧ s.bytes.word? offset = some a.word := by
  unfold liveWords at live
  split at live
  · obtain ⟨offset, mem, word⟩ := List.mem_filterMap.1 live
    obtain ⟨aligned, below⟩ := mem_liveOffsets_lt mem
    obtain ⟨w, found, rfl⟩ := Option.map_eq_some_iff.1 word
    exact ⟨offset, aligned, below, found⟩
  · cases live

/-- The stack with a frame that has no locals. -/
def FrameStack.opened (s : FrameStack) (returnTo : CodeAddress) : FrameStack :=
  ⟨s.bytes.overwrite s.sp (frameBytes s.bp returnTo 0), s.sp + 8, UInt32.ofNat s.sp⟩

theorem FrameStack.Nested.opened {s : FrameStack} {bases : List Nat} (nested : s.Nested bases)
    (room : s.sp + 8 ≤ s.bytes.size) (returnTo : CodeAddress) :
    (s.opened returnTo).Nested (s.sp :: bases) :=
  nested.newFrame (@FrameStack.Effect.newFrame s 0 returnTo room)

/-- A word that has been popped is gone, and nothing else has happened. -/
theorem FrameStack.dropped_of_pop {s s' : FrameStack} {w : Word} (run : pop s = .ok w s') :
    s' = s.dropped := by
  by_cases some_ : 4 ≤ s.sp
  · cases word : s.bytes.word? (s.sp - 4) with
    | some v =>
      cases (pop_eq some_ word).symm.trans run
      rfl
    | none =>
      unfold pop at run
      rw [run_get_bind, if_neg (by omega)] at run
      obtain ⟨⟨⟩, s₁, moved, run⟩ := exists_of_run_ok run
      cases moved
      unfold load at run
      rw [show ({ s with sp := s.sp - 4 } : FrameStack).bytes.word? (s.sp - 4) = none from word] at run
      cases run
  · unfold pop at run
    rw [run_get_bind, if_pos (by omega)] at run
    cases run

namespace Memory

variable {m : Memory} {a c : Ref} {elements : List Ref} {k : Nat}

theorem newFrame_eq (room : m.stack.sp + 8 ≤ m.stack.bytes.size) :
    newFrame 0 m = .ok () { m with stack := m.stack.opened m.pc } :=
  (run_get_bind _).trans (Memory.onStack_ok (FrameStack.newFrame_eq 0 m.pc room))

theorem setField_eq (holds : m.Holds a c (.refs elements)) (sound : m.space.Sound)
    (inside : k < elements.length) (w : Word) : setField a k w m =
      .ok true { m with space := m.space.mapBytes (Object.setField · a k w) } := by
  obtain ⟨size, -, length⟩ := holds.shows_.read?
  have count : (UInt32.ofNat (Content.refs elements).length).toNat = elements.length := by
    rw [← length, UInt32.ofNat_toNat, length]
    exact List.length_map _
  have has : Object.hasField ⟨.pointers, UInt32.ofNat (Content.refs elements).length, .normal c⟩ k =
      true := by
    unfold Object.hasField
    rw [count]
    simp only [BEq.rfl, Bool.true_and, decide_eq_true_eq]
    exact inside
  have header : m.header a = .ok ⟨.pointers, UInt32.ofNat (Content.refs elements).length, .normal c⟩ :=
    holds.header sound
  unfold setField
  rw [run_bind_ok (query_ok header), if_pos has, run_bind_ok (modifyHeap_eq _ _)]
  rfl

theorem peekRef_of_word {depth : Nat} {w : Word} (near : (depth + 1) * 4 < sizeLimit)
    (deep : (depth + 1) * 4 ≤ m.stack.sp)
    (word : m.stack.bytes.word? (m.stack.sp - (depth + 1) * 4) = some w) : m.peekRef depth = .ok ⟨w⟩ := by
  unfold peekRef FrameStack.peek
  dsimp only
  rw [if_neg (Nat.not_le.2 near), if_neg (Nat.not_lt.2 deep), word]
  rfl

theorem word_of_peek {depth : Nat} {r : Ref} (found : m.peekRef depth = .ok r) :
    (depth + 1) * 4 ≤ m.stack.sp ∧ m.stack.bytes.word? (m.stack.sp - (depth + 1) * 4) = some r.word := by
  unfold peekRef FrameStack.peek at found
  dsimp only at found
  split at found
  · cases found
  · split at found
    · cases found
    · rename_i deep
      split at found
      · rename_i w word
        cases found
        exact ⟨Nat.not_lt.1 deep, word⟩
      · cases found

theorem peekRef_eq {w : Word} (some_ : 4 ≤ m.stack.sp) (word : m.stack.bytes.word? (m.stack.sp - 4) = some w) :
    m.peekRef 0 = .ok ⟨w⟩ :=
  peekRef_of_word (by decide) some_ word

theorem word_of_peekRef {r : Ref} (top : m.peekRef 0 = .ok r) :
    4 ≤ m.stack.sp ∧ m.stack.bytes.word? (m.stack.sp - 4) = some r.word :=
  word_of_peek top

theorem pushRef_eq {r : Ref} (room : m.stack.sp + 4 ≤ m.stack.bytes.size) :
    pushRef r m = .ok () { m with stack := m.stack.pushed r.word } :=
  Memory.onStack_ok (FrameStack.push_eq r.word room)

theorem exists_of_onStack_ok {α : Type} {act : FrameStack.Run α} {m' : Memory} {a : α}
    (run : onStack act m = .ok a m') : ∃ s, act m.stack = .ok a s ∧ m' = { m with stack := s } := by
  obtain ⟨⟩ := m
  unfold onStack at run
  dsimp only at run
  split at run
  · rename_i ran
    cases run
    exact ⟨_, ran, rfl⟩
  · cases run

/-- The memory without the top word of its stack. -/
def popped (m : Memory) : Memory := { m with stack := m.stack.dropped }

theorem popRef_eq {w : Word} (some_ : 4 ≤ m.stack.sp) (word : m.stack.bytes.word? (m.stack.sp - 4) = some w) :
    popRef m = .ok ⟨w⟩ m.popped :=
  run_bind_ok (Memory.onStack_ok (FrameStack.pop_eq some_ word))

end Memory

/-! ### Objects -/

namespace Memory

variable {m : Memory} {r c : Ref} {content : Content}

/-- A look at an object shows what it holds. -/
theorem Holds.viewed (holds : m.Holds r c content) (sound : m.space.Sound) :
    ∃ view, m.view r = .ok view ∧ Viewed view (fun _ => none) ⟨.raw c.word, content⟩ := by
  obtain ⟨size, read, length⟩ := holds.shows_.read?
  refine ⟨_, holds.view sound, ?_⟩
  rw [← length, UInt32.ofNat_toNat]
  exact ⟨holds.shows_, holds.high.trans (sound.top_le_end.trans sound.end_le_size), rfl, length, c, rfl,
    rfl⟩

/-- An object takes no more than one half of the heap. -/
theorem Holds.twice_extent_lt (holds : m.Holds r c content) (sound : m.space.Sound) :
    2 * content.extent < wordLimit := by
  have low := holds.low
  have high := holds.high
  have last := sound.top_le_end
  have size := sound.size_eq
  have addressable := sound.addressable
  have stop : r.offset content.extent = r.offset 0 + content.extent := rfl
  unfold SemiSpaces.activeEnd at last
  omega

theorem stringValue_of_viewed {view : ObjectView} {text : List UInt8} (found : m.view r = .ok view)
    (viewed : Viewed view (fun _ => none) ⟨.raw c.word, .bytes text⟩) :
    Machine.stringValue m r = .ok text := by
  unfold Machine.stringValue
  rw [found]
  change (if view.header.kind = .bytes then pure view.payload else _) = _
  rw [show view.header.kind = .bytes from viewed.kind, viewed.payload_eq rfl]
  rfl

theorem integerValue_of_viewed {view : ObjectView} {value : Word} (found : m.view r = .ok view)
    (viewed : Viewed view (fun _ => none) ⟨.raw c.word, .bytes value.bytes⟩) :
    Machine.integerValue m r = .ok value := by
  have int : view.intValue? = some value := by
    rw [viewed.intValue?_bytes rfl, ← List.append_nil value.bytes, Word.ofList?_bytes_append]
  unfold Machine.integerValue
  rw [found]
  simp only [Machine.liftMemory, ok_bind, int]
  rfl

section Values

variable (sound : m.space.Sound)
include sound

theorem Holds.stringValue_eq {text : List UInt8} (holds : m.Holds r c (.bytes text)) :
    Machine.stringValue m r = .ok text := by
  obtain ⟨view, found, viewed⟩ := holds.viewed sound
  exact stringValue_of_viewed found viewed

theorem Holds.integerValue_eq {value : Word} (holds : m.Holds r c (.bytes value.bytes)) :
    Machine.integerValue m r = .ok value := by
  obtain ⟨view, found, viewed⟩ := holds.viewed sound
  exact integerValue_of_viewed found viewed

theorem Holds.arrayLength_eq {elements : List Ref} (holds : m.Holds r c (.refs elements)) :
    Machine.arrayLength m r = .ok (UInt32.ofNat elements.length) := by
  have length : (Content.refs elements).length = elements.length := List.length_map _
  unfold Machine.arrayLength
  rw [holds.view sound, length]
  rfl

/-- An index that is in range is not negative. -/
theorem Holds.fieldIndex_eq {elements : List Ref} (holds : m.Holds r c (.refs elements)) {index : Word}
    (inside : index.toNat < elements.length) : Machine.fieldIndex index = .ok index.toNat := by
  have half := holds.twice_extent_lt sound
  rw [Content.extent_refs] at half
  have limit : wordLimit = 2 ^ 32 := rfl
  have low : 2 * index.toNat < 2 ^ 32 := by omega
  have signed : index.signed = index.toNat := BitVec.toInt_eq_toNat_of_lt low
  unfold Machine.fieldIndex
  rw [if_neg (by omega)]

theorem Holds.fieldValue_eq {elements : List Ref} (holds : m.Holds r c (.refs elements)) {index : Word}
    {value : Ref} (element : elements[index.toNat]? = some value) :
    Machine.fieldValue m r index = .ok value := by
  obtain ⟨view, found, viewed⟩ := holds.viewed sound
  have listed : (elements.map fun v => Value.raw v.word)[index.toNat]? = some (.raw value.word) := by
    rw [List.getElem?_map, element]
    rfl
  obtain ⟨w, field, ⟨⟩⟩ := viewed.fieldWord?_eq rfl listed
  unfold Machine.fieldValue
  rw [found, holds.fieldIndex_eq sound (List.getElem?_eq_some_iff.1 element).1]
  simp only [Machine.liftMemory, ok_bind, ObjectView.field?, field]
  rfl

end Values

end Memory

namespace Machine

open Memory

variable {m : Memory} {objects : Set Ref} {bases : List Nat} {text : List UInt8}

/-- The operand is popped. -/
theorem wellFormed_popped (wf : m.WellFormed objects) (nested : m.stack.Nested bases)
    (nested₀ : m.stack.dropped.Nested bases) :
    m.popped.WellFormed objects := by
  refine wf.withStack fun a live => ?_
  apply wf.graph.root a
  apply List.mem_append_right
  change a ∈ m.stack.liveWords
  rw [nested₀.liveWords_eq, List.mem_filterMap] at live
  rw [nested.liveWords_eq, List.mem_filterMap]
  obtain ⟨offset, live, word⟩ := live
  refine ⟨offset, ?_, word⟩
  exact FrameStack.liveOffsets_subset nested₀ (show m.stack.Nested ([] ++ bases) from nested)
    (Nat.sub_le _ _) nofun live

theorem query_ok {α : Type} {f : Memory → Except MachineError α} {M : Machine} {a : α}
    (answer : f M.memory = .ok a) : Machine.query f M = .ok a M := by
  unfold Machine.query
  rw [answer]

/-- A service is noted and performed. -/
theorem invoke_eq {M : Machine} {id : Word} {entry : ServiceEntry}
    (listed : M.services.get? id = some entry) :
    invoke id M = perform entry.service (M.noted (.service entry.id entry.name)) := by
  unfold invoke
  rw [run_get_bind, listed]
  rfl

theorem popString_eq {M : Machine} {s : Ref} (top : M.memory.peekRef 0 = .ok s)
    (string : stringValue M.memory s = .ok text) :
    popString M = .ok text { M with memory := M.memory.popped } := by
  obtain ⟨some_, word⟩ := word_of_peekRef top
  refine (run_bind_ok (Lockstep.onMemory_ok (Memory.popRef_eq some_ word))).trans ?_
  exact Machine.query_ok (show stringValue M.memory.popped s = .ok text from string)

theorem exists_of_onMemory_ok {α : Type} {act : Memory.Run α} {m m' : Machine} {a : α}
    (run : onMemory act m = .ok a m') :
    ∃ mem, act m.memory = .ok a mem ∧ m' = { m with memory := mem } := by
  cases ran : act m.memory with
  | ok b mem =>
    rw [Lockstep.onMemory_ok ran] at run
    cases run
    exact ⟨mem, rfl, rfl⟩
  | error e mem =>
    rw [Lockstep.onMemory_error ran] at run
    cases run

/-! ### What has been popped -/

section Popped

variable {M M₁ : Machine}

theorem eq_of_query {α : Type} {f : Memory → Except MachineError α} {a : α}
    (run : Machine.query f M = .ok a M₁) : M₁ = M ∧ f M.memory = .ok a := by
  unfold Machine.query at run
  split at run
  · rename_i found
    cases run
    exact ⟨rfl, found⟩
  · cases run

theorem popped_of_popRef {r : Ref} (run : (Memory.popRef : Run Ref) M = .ok r M₁) :
    M₁ = { M with memory := M.memory.popped } := by
  obtain ⟨mem, ran, rfl⟩ :=
    exists_of_onMemory_ok (show onMemory Memory.popRef M = .ok r M₁ from run)
  obtain ⟨w, mem', popped, done⟩ := exists_of_run_ok ran
  cases done
  obtain ⟨s, pop, rfl⟩ := Memory.exists_of_onStack_ok popped
  rw [FrameStack.dropped_of_pop pop]
  rfl

theorem popped_of_popInteger {value : Word} (run : popInteger M = .ok value M₁) :
    M₁ = { M with memory := M.memory.popped } := by
  obtain ⟨r, M', ran, asked⟩ := exists_of_run_ok run
  exact (eq_of_query asked).1.trans (popped_of_popRef ran)

/-- A String has as many bytes as its header can say. -/
theorem length_of_stringValue {s : Ref} (string : stringValue m s = .ok text) :
    text.length < wordLimit := by
  obtain ⟨view, -, value⟩ := exists_of_bind_eq_ok string
  split at value
  · rename_i bytes
    cases value
    have size : view.header.payloadBytes = view.header.size.toNat := by
      unfold Header.payloadBytes
      rw [bytes]
      rfl
    have short : view.payload.length ≤ view.header.payloadBytes := by
      simp [ObjectView.payload, Bytes.slice]
    exact short.trans_lt (size ▸ view.header.size.toNat_lt)
  · cases value

theorem popped_of_popString (run : popString M = .ok text M₁) :
    M₁ = { M with memory := M.memory.popped } ∧ text.length < wordLimit := by
  obtain ⟨s, M', ran, asked⟩ := exists_of_run_ok run
  obtain ⟨same, string⟩ := eq_of_query asked
  exact ⟨same.trans (popped_of_popRef ran), length_of_stringValue string⟩

end Popped

/-- A word of the innermost frame is a root. -/
theorem mem_liveOffsets_of_peek {depth : Nat} {a : Ref} (nested : m.stack.Nested bases)
    (words : m.stack.HasWords (depth + 1)) (found : m.peekRef depth = .ok a) :
    m.stack.sp - (depth + 1) * 4 ∈ m.stack.liveOffsets ⟨bases, none⟩ := by
  obtain ⟨deep, -⟩ := word_of_peek found
  have aligned := nested.aligned
  rw [FrameStack.mem_liveOffsets_iff aligned]
  refine ⟨by omega, by omega, fun base mem => ?_⟩
  obtain ⟨open_, le⟩ := nested.linked.le_bp base mem
  have := words open_
  omega

/-- With a word pushed, the operands are below it, wherever they have been carried to. -/
theorem peekRef_of_carries {m' : Memory} {f : Ref → Ref} {depth : Nat} {a : Ref}
    (carries : m.stack.Carries m'.stack bases f) (nested : m.stack.Nested bases)
    (words : m.stack.HasWords (depth + 1)) (found : m.peekRef depth = .ok a)
    (sp : m'.stack.sp = m.stack.sp + 4) : m'.peekRef (depth + 1) = .ok (f a) := by
  obtain ⟨deep, word⟩ := word_of_peek found
  have moved := carries.live _ (mem_liveOffsets_of_peek nested words found) _ word
  have place : m'.stack.sp - (depth + 1 + 1) * 4 = m.stack.sp - (depth + 1) * 4 := by omega
  refine peekRef_of_word ?_ (by omega) (place ▸ moved)
  have fits := nested.bounded.sp_le
  have addressable := nested.bounded.addressable
  have limits : wordLimit + 4 < sizeLimit := by decide
  omega

/-- A word is pushed above the operands. -/
theorem peekRef_pushed {depth : Nat} {a : Ref} (bounded : m.stack.Bounded)
    (room : m.stack.sp + 4 ≤ m.stack.bytes.size) (found : m.peekRef depth = .ok a) (w : Word) :
    ({ m with stack := m.stack.pushed w } : Memory).peekRef (depth + 1) = .ok a := by
  obtain ⟨deep, word⟩ := word_of_peek found
  have addressable := bounded.addressable
  have limits : wordLimit < sizeLimit := by decide
  have place : (m.stack.pushed w).sp - (depth + 1 + 1) * 4 = m.stack.sp - (depth + 1) * 4 := by
    change m.stack.sp + 4 - _ = _
    omega
  refine peekRef_of_word (by omega) ?_ ?_
  · change _ ≤ m.stack.sp + 4
    omega
  · rw [place]
    refine (Bytes.word?_overwrite_of_apart _ _ _ _ room (Or.inl ?_)).trans word
    omega

/-- A word that is an object, or no address, is pushed. -/
theorem wellFormed_pushed {a : Ref} (wf : m.WellFormed objects) (nested : m.stack.Nested bases)
    (room : m.stack.sp + 4 ≤ m.stack.bytes.size)
    (value : a ∈ objects ∨ Stray addressGuard m.space.bytes.size a) :
    ({ m with stack := m.stack.pushed a.word } : Memory).WellFormed objects := by
  refine wf.withStack fun b live => ?_
  rw [nested.liveWords_pushed room] at live
  rcases List.mem_append.1 live with old | new
  · exact wf.graph.root b (List.mem_append_right _ old)
  · rw [List.mem_singleton.1 new]
    exact value

/-- The operand on top of the stack is one of the objects. -/
theorem object_on_top {v : ObjectView} {s : Ref} (wf : m.WellFormed objects) (nested : m.stack.Nested bases)
    (words : m.stack.HasWords 1) (top : m.peekRef 0 = .ok s) (view : m.view s = .ok v) : s ∈ objects := by
  obtain ⟨-, word⟩ := word_of_peekRef top
  refine wf.object_of_view (List.mem_append_right _ ?_) view
  change s ∈ m.stack.liveWords
  rw [nested.liveWords_eq, List.mem_filterMap]
  exact ⟨m.stack.sp - 4, mem_liveOffsets_of_peek nested words top, by rw [word]; rfl⟩

/-- A String that is an operand. -/
theorem string_on_top {s : Ref} (wf : m.WellFormed objects) (nested : m.stack.Nested bases)
    (words : m.stack.HasWords 1) (top : m.peekRef 0 = .ok s) (string : stringValue m s = .ok text) :
    ∃ c, m.Holds s c (.bytes text) := by
  obtain ⟨v, view, -⟩ := exists_of_bind_eq_ok string
  exact wf.holds_string (object_on_top wf nested words top (Lockstep.liftMemory_eq_ok view)) string

theorem length_of_holds {c s : Ref} (wf : m.WellFormed objects) (holds : m.Holds s c (.bytes text)) :
    text.length + 1 < wordLimit := by
  have high : s.offset (11 + text.length) ≤ m.space.top := holds.high
  have place : s.offset (11 + text.length) = s.offset 0 + (11 + text.length) := rfl
  have fits := wf.fits
  have addressable := wf.sound.addressable
  omega

/-! ### New machines -/

/-- **A new machine**: it is in order, its stack is empty, and the library takes a known part of
    its heap. -/
structure IsNew (setup : Setup) (m : Machine) (objects : Set Ref) : Prop where
  known : m.known = Stage.ready.known
  services : m.services = .standard
  classes : m.memory.classes.size = libraryRecords.length
  wf : m.memory.WellFormed objects
  top : m.memory.space.top ≤ m.memory.space.activeStart + libraryVolume
  half : m.memory.space.half = setup.settings.heapSize / 2
  nested : m.memory.stack.Nested []
  sp : m.memory.stack.sp = 0
  stack_size : m.memory.stack.bytes.size = setup.settings.stackSize

theorem isNew_of_new {setup : Setup} {m : Machine} (made : Machine.new setup = .ok m) :
    ∃ objects, IsNew setup m objects := by
  have new : ∀ _ : Unit, Machine.new (setup.withHeap setup.settings.heapSize) = .ok m :=
    fun _ => made
  obtain ⟨w, holds, reached⟩ := World.holds_new new
  obtain ⟨services, -, -, sp, size⟩ := facts_of_new made
  have shows_ := holds.shows_ ()
  refine ⟨_,
    { known := (holds.known ()).trans reached.known
      services := services
      classes := ?classes
      wf := ⟨shows_.heap.sound, shows_.wellFormed holds.valid (holds.stray ())⟩
      top := ?top
      half := ?half
      nested := nested_of_new made
      sp := sp
      stack_size := size }⟩
  case classes =>
    have entries := congrArg List.length shows_.classes
    rw [List.length_map, List.length_map, Array.length_toList, reached.described.length] at entries
    exact entries.symm
  case top =>
    have compact := shows_.heap.compact
    rw [reached.volume, SemiSpaces.used] at compact
    change _ ≤ libraryVolume at compact
    omega
  case half =>
    have size := holds.size ()
    rw [shows_.heap.sound.size_eq, bufferSize] at size
    omega

theorem classOrNull_of_lt {id : ClassId} (inside : id.index.toNat < m.classes.size) :
    ∃ c, m.classOrNull (some id) = .ok c := by
  refine ⟨m.classes[id.index.toNat], ?_⟩
  change m.classRef id = _
  unfold classRef
  rw [Array.getElem?_eq_getElem inside]

namespace IsNew

variable {setup : Setup} {m : Machine} {objects : Set Ref} (new : IsNew setup m objects)
include new

/-- What the library leaves of its half is free. -/
theorem half_le_free : setup.settings.heapSize / 2 ≤ m.memory.space.free + libraryVolume := by
  have top := new.top
  have half := new.half
  unfold SemiSpaces.free SemiSpaces.activeEnd
  omega

theorem exists_array : ∃ c, m.memory.classOrNull m.known.array = .ok c := by
  rw [new.known]
  exact classOrNull_of_lt (show 2 < m.memory.classes.size by rw [new.classes]; decide)

theorem exists_integer : ∃ c, m.memory.classOrNull m.known.integer = .ok c := by
  rw [new.known]
  exact classOrNull_of_lt (show 3 < m.memory.classes.size by rw [new.classes]; decide)

theorem exists_string : ∃ c, m.memory.classOrNull m.known.string = .ok c := by
  rw [new.known]
  exact classOrNull_of_lt (show 4 < m.memory.classes.size by rw [new.classes]; decide)

end IsNew

end Machine

end ObjectMachine
