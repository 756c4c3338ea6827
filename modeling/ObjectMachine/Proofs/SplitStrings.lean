/-
  ObjectMachine/Proofs/SplitStrings.lean
  ======================================
  **Splitting a String is exact, whenever collections happen.**

  Splitting makes an Array and then one String after the other.  Each of them may start a
  collection that moves the Array and the Strings that are in it already, so the Array stays on
  the stack, and `Filling` is what holds between any two Strings: the Array is on top of what was
  on the stack before, its first fields lead to the parts made so far, and the rest is null.
-/
import ObjectMachine.Proofs.Operands

namespace ObjectMachine

open ObjectGraph

/-! ### Parts of a text -/

namespace Words

theorem length_pieces_le (text : List UInt8) : (pieces text).length ≤ text.length + 1 := by
  induction text with
  | nil => exact Nat.le_refl _
  | cons x rest ih =>
    unfold pieces
    split
    · rw [List.length_cons, List.length_cons]
      omega
    · split
      · simp
      · rename_i piece more eq
        rw [eq, List.length_cons] at ih
        rw [List.length_cons, List.length_cons]
        omega

theorem length_le_of_mem_pieces {text : List UInt8} : ∀ piece ∈ pieces text, piece.length ≤ text.length := by
  induction text with
  | nil =>
    intro piece mem
    rw [List.mem_singleton.1 mem]
  | cons x rest ih =>
    intro piece mem
    rw [List.length_cons]
    unfold pieces at mem
    split at mem
    · rcases List.mem_cons.1 mem with rfl | mem
      · exact Nat.zero_le _
      · exact (ih piece mem).trans (Nat.le_succ _)
    · split at mem
      · rw [List.mem_singleton.1 mem, List.length_singleton]
        omega
      · rename_i first more eq
        rw [eq] at ih
        rcases List.mem_cons.1 mem with rfl | mem
        · rw [List.length_cons]
          exact Nat.succ_le_succ (ih first List.mem_cons_self)
        · exact (ih piece (List.mem_cons_of_mem _ mem)).trans (Nat.le_succ _)

/-- Splitting gives no more parts than there are bytes, and one, and none is longer than the text. -/
theorem length_split_le (text : List UInt8) :
    (split text).length ≤ text.length + 1 ∧ ∀ part ∈ split text, part.length ≤ text.length := by
  have kept : ((pieces text).reverse.dropWhile List.isEmpty).reverse.Sublist (pieces text) := by
    have tail := (List.dropWhile_sublist List.isEmpty (l := (pieces text).reverse)).reverse
    rwa [List.reverse_reverse] at tail
  unfold split
  split
  · refine ⟨kept.length_le.trans (length_pieces_le text), ?_⟩
    intro part mem
    exact length_le_of_mem_pieces part (kept.subset mem)
  · refine ⟨?_, ?_⟩
    · rw [List.length_singleton]
      exact Nat.le_add_left _ _
    · intro part mem
      rw [List.mem_singleton.1 mem]

end Words

/-! ### Filling the Array -/

namespace Machine

open Memory

/-- A String that has been made for a part of a text. -/
def partItem (known : KnownClasses) (part : Ref × List UInt8) : Item :=
  ⟨part.1, known.string, .bytes part.2⟩

/-- The Array, with the Strings that are in it and the fields that are left. -/
def arrayItem (known : KnownClasses) (array : Ref) (parts : List (Ref × List UInt8)) (left : Nat) : Item :=
  ⟨array, known.array, .refs (parts.map Prod.fst ++ List.replicate left Ref.null)⟩

/-- **The Array is being filled.**  It is on top of the stack; its first fields hold the Strings
    made so far, and the others are null. -/
structure Filling (start : Memory) (old : Set Ref) (bases : List Nat) (known : KnownClasses)
    (m : Memory) (objects : Set Ref) (φ : Ref → Ref) (array : Ref) (parts : List (Ref × List UInt8))
    (left : Nat) : Prop where
  work : Working start old bases m objects φ (arrayItem known array parts left :: parts.map (partItem known))
  nested : m.stack.Nested bases
  sp : m.stack.sp = start.stack.sp + 4
  bp : m.stack.bp = start.stack.bp
  top : m.stack.bytes.word? start.stack.sp = some array.word

variable {start m m' : Memory} {old objects : Set Ref} {bases : List Nat} {known : KnownClasses}
  {parts : List (Ref × List UInt8)} {left : Nat} {φ ψ : Ref → Ref} {array r c : Ref} {text : List UInt8}

/-- Where the Strings are after objects have moved. -/
def movedParts (f : Ref → Ref) (parts : List (Ref × List UInt8)) : List (Ref × List UInt8) :=
  parts.map fun part => (f part.1, part.2)

theorem length_movedParts (f : Ref → Ref) (parts : List (Ref × List UInt8)) :
    (movedParts f parts).length = parts.length := List.length_map _

theorem texts_movedParts (f : Ref → Ref) (parts : List (Ref × List UInt8)) :
    (movedParts f parts).map Prod.snd = parts.map Prod.snd := by
  unfold movedParts
  rw [List.map_map]
  rfl

theorem moved_items {f : Ref → Ref} (null : f Ref.null = Ref.null) :
    (arrayItem known array parts left :: parts.map (partItem known)).map (Item.moved f) =
      arrayItem known (f array) (movedParts f parts) left ::
        (movedParts f parts).map (partItem known) := by
  rw [List.map_cons]
  congr 1
  · unfold arrayItem Item.moved
    dsimp only
    rw [Content.map_refs, List.map_append, List.map_replicate, null]
    unfold movedParts
    rw [List.map_map, List.map_map]
    rfl
  · unfold movedParts
    rw [List.map_map, List.map_map]
    rfl

namespace Filling

variable (filling : Filling start old bases known m objects φ array parts left)
  (nested₀ : start.stack.Nested bases)
include filling nested₀

/-- The Array is a root. -/
theorem live : start.stack.sp ∈ m.stack.liveOffsets ⟨bases, none⟩ := by
  rw [FrameStack.mem_liveOffsets_iff filling.nested.aligned]
  refine ⟨nested₀.aligned, filling.sp.ge, ?_⟩
  intro base mem
  have := nested₀.below base mem
  omega

/-- The roots lead to the Array and, through it, to the Strings. -/
theorem reachable : ∀ i ∈ arrayItem known array parts left :: parts.map (partItem known),
    (m.graph objects).Reachable i.ref := by
  have first : (m.graph objects).Reachable array := by
    refine .root (List.mem_append_right _ ?_) (filling.work.made _ List.mem_cons_self)
    change array ∈ m.stack.liveWords
    rw [filling.nested.liveWords_eq, List.mem_filterMap]
    exact ⟨start.stack.sp, filling.live nested₀, by rw [filling.top]; rfl⟩
  intro i mem
  rcases List.mem_cons.1 mem with rfl | listed
  · exact first
  · obtain ⟨part, made, rfl⟩ := List.mem_map.1 listed
    obtain ⟨c, -, holds⟩ := filling.work.has _ List.mem_cons_self
    refine WellFormed.reachable_element (filling.work.made _ mem) first
      (filling.work.ordinary _ List.mem_cons_self) holds ?_
    exact List.mem_append_left _ (List.mem_map_of_mem made)

/-- **A collection leaves the Array being filled.** -/
theorem copied (wf₀ : start.WellFormed old) (copied : m.CopiedTo m' objects ψ)
    (program : m'.program = m.program) :
    Filling start old bases known m' (ψ '' {a | (m.graph objects).Reachable a}) (ψ ∘ φ)
      ((m.graph objects).follow ψ array) (movedParts ((m.graph objects).follow ψ) parts) left := by
  obtain ⟨nested, sp, bp⟩ := copied.nested filling.nested
  obtain ⟨chain, found, stack⟩ := copied.stack
  cases filling.nested.chain_eq.symm.trans found
  have le : start.stack.sp ≤ m.stack.sp := by
    rw [filling.sp]
    exact Nat.le_add_right _ _
  have work := filling.work.copied wf₀ nested₀ (show m.stack.Nested ([] ++ bases) from filling.nested) le
    nofun (filling.reachable nested₀) copied program
  rw [moved_items filling.work.wf.follow_null] at work
  refine ⟨work, nested, sp.trans filling.sp, bp.trans filling.bp, ?_⟩
  rw [stack]
  exact FrameStack.word?_replaceWords_of_mem _ (FrameStack.nodup_liveOffsets _)
    (fun o mem => (FrameStack.mem_liveOffsets_lt mem).1) (filling.live nested₀) m.stack filling.top

end Filling

/-- **A String is put into the next field.** -/
theorem Filling.stored (filling : Filling start old bases known m objects φ array parts (left + 1))
    (wf₀ : start.WellFormed old) (class_ : m.classOrNull known.string = .ok c)
    (added : m.Adds m' r c (.bytes text)) :
    ∃ m'', Memory.setField array parts.length r.word m' = .ok true m'' ∧
      m''.space.free = m'.space.free ∧
      Filling start old bases known m'' (insert r objects) φ array (parts ++ [(r, text)]) left := by
  have work := filling.work.adds wf₀ class_ added nofun
  obtain ⟨d, -, holds⟩ := work.has _ List.mem_cons_self
  have inside : parts.length < (parts.map Prod.fst ++ List.replicate (left + 1) Ref.null).length := by
    rw [List.length_append, List.length_map, List.length_replicate]
    omega
  have next : (parts.map Prod.fst ++ List.replicate (left + 1) Ref.null).set parts.length r =
      (parts ++ [(r, text)]).map Prod.fst ++ List.replicate left Ref.null := by
    have length : (parts.map Prod.fst).length = parts.length := List.length_map _
    rw [List.set_append_right _ _ length.le, length, Nat.sub_self, List.replicate_succ,
      List.set_cons_zero, List.map_append, List.map_singleton, List.append_assoc]
    rfl
  have filled := work.setField wf₀ rfl inside (Or.inl (Set.mem_insert r objects))
  rw [next] at filled
  refine ⟨_, setField_eq holds added.sound inside r.word, rfl, ⟨?_, ?_, ?_, ?_, ?_⟩⟩
  · rw [List.map_append, List.map_singleton]
    exact filled
  · change m'.stack.Nested bases
    rw [added.stack]
    exact filling.nested
  · change m'.stack.sp = _
    rw [added.stack]
    exact filling.sp
  · change m'.stack.bp = _
    rw [added.stack]
    exact filling.bp
  · change m'.stack.bytes.word? _ = _
    rw [added.stack]
    exact filling.top

/-- The bytes that the Strings of these texts take. -/
def volumeOf (texts : List (List UInt8)) : Nat := (texts.map fun text => 11 + text.length).sum

/-- **Filling the Array**, one String after the other: there is no room for one of them, or each
    field holds its part. -/
theorem storeParts_fills (wf₀ : start.WellFormed old) (nested₀ : start.stack.Nested bases)
    (texts : List (List UInt8)) :
    ∀ {M : Machine} {objects : Set Ref} {φ : Ref → Ref} {array : Ref} {parts : List (Ref × List UInt8)},
      (∃ c, start.classOrNull M.known.string = .ok c) → (∀ text ∈ texts, text.length < wordLimit) →
      Filling start old bases M.known M.memory objects φ array parts texts.length →
      ∃ m' objects' φ' array' parts',
        (∃ need available left, storeParts parts.length texts M =
            .error (.memory (.outOfMemory need available)) { M with memory := m' } ∧
          M.memory.space.free < volumeOf texts ∧
          Filling start old bases M.known m' objects' φ' array' parts' left) ∨
        storeParts parts.length texts M = .ok () { M with memory := m' } ∧
          parts'.map Prod.snd = parts.map Prod.snd ++ texts ∧
          Filling start old bases M.known m' objects' φ' array' parts' 0 := by
  induction texts with
  | nil =>
    intro M objects φ array parts _ _ filling
    exact ⟨M.memory, objects, φ, array, parts, Or.inr ⟨rfl, (List.append_nil _).symm, filling⟩⟩
  | cons text texts ih =>
    rintro M objects φ array parts ⟨c₀, registered⟩ short filling
    have class_ : M.memory.classOrNull M.known.string = .ok ((start.graph old).follow φ c₀) := by
      rw [filling.work.carries.classOrNull_eq wf₀, registered]
      rfl
    have of_room : (Content.bytes text).extent ≤ M.memory.space.free → _ :=
      newString_of_room filling.work.wf.sound class_ (short text List.mem_cons_self)
    have all : volumeOf (text :: texts) = 11 + text.length + volumeOf texts := List.sum_cons
    obtain ⟨m₁, ψ, copied, program, ⟨need, available, run⟩ | ⟨r, m₂, run, added⟩⟩ :=
      newString_makes filling.work.wf filling.nested.whole.readable class_
        (short text List.mem_cons_self)
    · have full : M.memory.space.free < 11 + text.length := free_lt_of_error of_room run
      refine ⟨m₁, _, _, _, _, Or.inl ⟨need, available, _, run_bind_error run, ?_,
        filling.copied nested₀ wf₀ copied program⟩⟩
      rw [all]
      exact full.trans_le (Nat.le_add_right _ _)
    · have used : M.memory.space.free ≤ m₂.space.free + (11 + text.length) :=
        free_le_of_ok of_room filling.work.wf.sound run
      have moved := filling.copied nested₀ wf₀ copied program
      have class₁ : m₁.classOrNull M.known.string =
          .ok ((M.memory.graph objects).follow ψ ((start.graph old).follow φ c₀)) := by
        rw [copied.classOrNull_eq filling.work.wf, class_]
        rfl
      obtain ⟨m₃, set, same, stored⟩ := moved.stored wf₀ class₁ added
      rw [length_movedParts] at set
      have top : Memory.query (·.peekRef 0) m₂ = .ok ((M.memory.graph objects).follow ψ array) m₂ := by
        have sp : m₂.stack.sp = start.stack.sp + 4 := added.stack ▸ moved.sp
        have word : m₂.stack.bytes.word? (m₂.stack.sp - 4) =
            some ((M.memory.graph objects).follow ψ array).word := by
          rw [sp, added.stack]
          exact moved.top
        exact Memory.query_ok (peekRef_eq (by omega) word)
      have step : storeParts parts.length (text :: texts) M =
          storeParts (parts.length + 1) texts { M with memory := m₃ } := by
        refine (run_bind_ok run).trans ?_
        refine (run_bind_ok (Lockstep.onMemory_ok top)).trans ?_
        exact run_bind_ok (Lockstep.onMemory_ok set)
      obtain ⟨m', objects', φ', array', parts', outcome⟩ := @ih { M with memory := m₃ } _ _ _ _
        ⟨c₀, registered⟩ (fun t mem => short t (List.mem_cons_of_mem _ mem)) stored
      rw [List.length_append, length_movedParts, List.map_append, texts_movedParts, List.append_assoc]
        at outcome
      rw [step]
      refine ⟨m', objects', φ', array', parts', outcome.imp_left ?_⟩
      rintro ⟨need, available, left, failed, full, filling'⟩
      change m₃.space.free < volumeOf texts at full
      refine ⟨need, available, left, failed, ?_, filling'⟩
      rw [all]
      omega

/-! ### The Array and the stack -/

namespace Filling

variable (filling : Filling start old bases known m objects φ array parts left)
include filling

theorem word_top : m.stack.bytes.word? (m.stack.sp - 4) = some array.word := by
  rw [filling.sp, Nat.add_sub_cancel]
  exact filling.top

theorem peekRef_eq : m.peekRef 0 = .ok array :=
  Memory.peekRef_eq (by rw [filling.sp]; omega) filling.word_top

theorem popRef_eq : popRef m = .ok array m.popped :=
  Memory.popRef_eq (by rw [filling.sp]; omega) filling.word_top

/-- Popping the Array and pushing it again changes nothing. -/
theorem pushRef_dropped : pushRef array m.popped = .ok () m := by
  have sp : m.stack.sp - 4 + 4 = m.stack.sp := by
    rw [filling.sp]
    omega
  have room : m.stack.sp - 4 + 4 ≤ m.stack.bytes.size := by
    rw [sp]
    exact filling.nested.bounded.sp_le
  refine (Memory.pushRef_eq room).trans ?_
  have same : m.popped.stack.pushed array.word = m.stack := by
    change (⟨m.stack.bytes.overwrite (m.stack.sp - 4) array.word.bytes, m.stack.sp - 4 + 4,
      m.stack.bp⟩ : FrameStack) = m.stack
    rw [Bytes.overwrite_word_self filling.word_top, sp]
  rw [same]
  rfl

end Filling

/-- The Array is put on the stack. -/
theorem filling_of_pushed (work : Working start old bases m objects φ [arrayItem known array [] left])
    (nested : m.stack.Nested bases) (nested₀ : start.stack.Nested bases) (sp : m.stack.sp = start.stack.sp)
    (bp : m.stack.bp = start.stack.bp) (room : start.stack.sp + 4 ≤ start.stack.bytes.size) :
    ∃ m', pushRef array m = .ok () m' ∧ m'.space = m.space ∧
      Filling start old bases known m' objects φ array [] left := by
  have room' : m.stack.sp + 4 ≤ m.stack.bytes.size := by
    rw [sp, work.carries.stack.size]
    exact room
  refine ⟨_, Memory.pushRef_eq room', rfl, ⟨work.withStack ?_ ?_, nested.pushed room' _, ?_, bp, ?_⟩⟩
  · refine work.carries.stack.above nested₀ (Bytes.size_overwrite _ _ _) ?_
    intro p n below
    exact Bytes.same_overwrite _ _ _ p n room' (Or.inl (by rw [sp]; exact below))
  · intro a live
    rw [nested.liveWords_pushed room'] at live
    rcases List.mem_append.1 live with old | new
    · exact work.wf.graph.root a (List.mem_append_right _ old)
    · rw [List.mem_singleton.1 new]
      exact Or.inl (work.made _ List.mem_cons_self)
  · change m.stack.sp + 4 = _
    rw [sp]
  · rw [← sp]
    exact Bytes.word?_overwrite_self _ _ _ room'

/-! ### Splitting -/

theorem withRooted_ok {α : Type} {M M₁ M₂ M₃ : Machine} {r r' : Ref} {act : Run α} {a : α}
    (pushed : (pushRef r : Run Unit) M = .ok () M₁) (run : act M₁ = .ok a M₂)
    (popped : (popRef : Run Ref) M₂ = .ok r' M₃) : withRooted r act M = .ok (a, r') M₃ := by
  have tried : withRooted.attempt act M₁ = .ok (.ok a) M₂ := by
    unfold withRooted.attempt
    rw [run]
  refine (run_bind_ok pushed).trans ((run_bind_ok tried).trans ?_)
  exact run_bind_ok popped

theorem withRooted_error {α : Type} {M M₁ M₂ M₃ : Machine} {r r' : Ref} {act : Run α} {e : MachineError}
    (pushed : (pushRef r : Run Unit) M = .ok () M₁) (run : act M₁ = .error e M₂)
    (popped : (popRef : Run Ref) M₂ = .ok r' M₃) : withRooted r act M = .error e M₃ := by
  have tried : withRooted.attempt act M₁ = .ok (.error e) M₂ := by
    unfold withRooted.attempt
    rw [run]
  refine (run_bind_ok pushed).trans ((run_bind_ok tried).trans ?_)
  exact run_bind_ok popped

/-- What splitting does once it has the parts. -/
def pushParts (texts : List (List UInt8)) : Run Unit := do
  let array ← newArray (UInt32.ofNat texts.length)
  let ((), array) ← withRooted array (storeParts 0 texts)
  Memory.pushRef array

theorem splitString_eq : splitString = popString >>= fun text => pushParts (Words.split text) := rfl

/-- **An Array of Strings is pushed**, or there is no room for it and everything else is as before. -/
theorem pushParts_cases {M : Machine} {texts : List (List UInt8)} (wf : M.memory.WellFormed old)
    (nested : M.memory.stack.Nested bases)
    (room : M.memory.stack.sp + 4 ≤ M.memory.stack.bytes.size)
    (arrays : ∃ c, M.memory.classOrNull M.known.array = .ok c)
    (strings : ∃ c, M.memory.classOrNull M.known.string = .ok c) (few : texts.length < wordLimit)
    (short : ∀ text ∈ texts, text.length < wordLimit) :
    ∃ m' φ, (∃ need available, pushParts texts M =
          .error (.memory (.outOfMemory need available)) { M with memory := m' } ∧
        M.memory.space.free < 11 + texts.length * 4 + volumeOf texts ∧
        M.memory.Carries m' old bases φ ∧ m'.stack.sp = M.memory.stack.sp ∧
        m'.stack.bp = M.memory.stack.bp ∧ m'.program = M.memory.program) ∨
      ∃ objects' array parts, pushParts texts M = .ok () { M with memory := m' } ∧
        parts.map Prod.snd = texts ∧
        Filling M.memory old bases M.known m' objects' φ array parts 0 := by
  obtain ⟨c, arrays⟩ := arrays
  have count : (UInt32.ofNat texts.length).toNat = texts.length := (toNat_length few).symm
  have extent : (Content.refs (List.replicate texts.length Ref.null)).extent = 11 + texts.length * 4 := by
    rw [Content.extent_refs, List.length_replicate]
  have made := newArray_makes wf nested.whole.readable arrays (UInt32.ofNat texts.length)
  have of_room := @newArray_of_room M c wf.sound arrays (UInt32.ofNat texts.length)
  rw [count, ← extent] at of_room
  rw [count] at made
  obtain ⟨m₁, ψ, copied, program, outcome⟩ := made
  obtain ⟨nested₁, sp, bp⟩ := copied.nested nested
  have work₁ := wf.working.copied wf nested (show M.memory.stack.Nested ([] ++ bases) from nested)
    (Nat.le_refl _) nofun nofun copied program
  rcases outcome with ⟨need, available, run⟩ | ⟨r, m₂, run, added⟩
  · have full := free_lt_of_error of_room run
    rw [extent] at full
    exact ⟨m₁, _, Or.inl ⟨need, available, run_bind_error run, full.trans_le (Nat.le_add_right _ _),
      work₁.carries, sp, bp, program⟩⟩
  have used := free_le_of_ok of_room wf.sound run
  rw [extent] at used
  dsimp only at used
  have class₁ : m₁.classOrNull M.known.array = .ok ((M.memory.graph old).follow ψ c) := by
    rw [copied.classOrNull_eq wf, arrays]
    rfl
  have nulls : ∀ w, Value.raw w ∈ (Content.refs (List.replicate texts.length Ref.null)).values →
      (⟨w⟩ : Ref) ∈ ψ '' {a | (M.memory.graph old).Reachable a} ∨
        Stray addressGuard m₁.space.bytes.size ⟨w⟩ := by
    intro w mem
    obtain ⟨v, listed, eq⟩ := List.mem_map.1 mem
    cases eq
    rw [List.eq_of_mem_replicate listed]
    exact Or.inr (stray_null copied.sound)
  obtain ⟨m₃, pushed, same, filling⟩ := filling_of_pushed (work₁.adds wf class₁ added nulls)
    (added.stack ▸ nested₁) nested (added.stack ▸ sp) (added.stack ▸ bp) room
  obtain ⟨m', objects', φ', array, parts, outcome⟩ :=
    @storeParts_fills _ _ _ wf nested texts { M with memory := m₃ } _ _ _ _ strings short filling
  have rooted : (pushRef r : Run Unit) { M with memory := m₂ } = .ok () { M with memory := m₃ } :=
    Lockstep.onMemory_ok pushed
  rcases outcome with ⟨need, available, left, failed, full, filling'⟩ | ⟨filled, texts, filling'⟩
  · change m₃.space.free < volumeOf texts at full
    rw [same] at full
    have popped : (popRef : Run Ref) { M with memory := m' } = .ok array { M with memory := m'.popped } :=
      Lockstep.onMemory_ok filling'.popRef_eq
    refine ⟨m'.popped, φ', Or.inl ⟨need, available, ?_, ?_, ?_, ?_, filling'.bp,
      filling'.work.program⟩⟩
    · exact (run_bind_ok run).trans (run_bind_error (withRooted_error rooted failed popped))
    · omega
    · exact { filling'.work.carries with stack := { filling'.work.carries.stack with } }
    · change m'.stack.sp - 4 = _
      rw [filling'.sp, Nat.add_sub_cancel]
  · have popped : (popRef : Run Ref) { M with memory := m' } = .ok array { M with memory := m'.popped } :=
      Lockstep.onMemory_ok filling'.popRef_eq
    refine ⟨m', φ', Or.inr ⟨objects', array, parts, ?_, texts, filling'⟩⟩
    refine (run_bind_ok run).trans ((run_bind_ok (withRooted_ok rooted filled popped)).trans ?_)
    exact Lockstep.onMemory_ok filling'.pushRef_dropped

section Splitting

variable {s : Ref} {M : Machine} (arrays : ∃ c, M.memory.classOrNull M.known.array = .ok c)
  (strings : ∃ c, M.memory.classOrNull M.known.string = .ok c) (wf : M.memory.WellFormed objects)
  (nested : M.memory.stack.Nested bases) (words : M.memory.stack.HasWords 1)
  (top : M.memory.peekRef 0 = .ok s) (string : stringValue M.memory s = .ok text)
include arrays strings wf nested words top string

/-- **Splitting** replaces a String by the Array of its parts, or finds no room for it. -/
theorem splitString_cases :
    ∃ m' φ, (∃ need available, splitString M =
          .error (.memory (.outOfMemory need available)) { M with memory := m' } ∧
        M.memory.space.free < 11 + (Words.split text).length * 4 + volumeOf (Words.split text) ∧
        M.memory.popped.Carries m' objects bases φ ∧ m'.stack.sp = M.memory.popped.stack.sp ∧
        m'.stack.bp = M.memory.popped.stack.bp ∧ m'.program = M.memory.popped.program) ∨
      ∃ objects' array parts, splitString M = .ok () { M with memory := m' } ∧
        parts.map Prod.snd = Words.split text ∧
        Filling M.memory.popped objects bases M.known m' objects' φ array parts 0 := by
  obtain ⟨some_, -⟩ := word_of_peekRef top
  have nested' : M.memory.popped.stack.Nested bases :=
    nested.dropped some_ (nested.above_frames words)
  have wf' : M.memory.popped.WellFormed objects := wellFormed_popped wf nested nested'
  have room : M.memory.stack.sp - 4 + 4 ≤ M.memory.stack.bytes.size := by
    have := nested.bounded.sp_le
    omega
  obtain ⟨c, holds⟩ := string_on_top wf nested words top string
  have length := length_of_holds wf holds
  obtain ⟨few, short⟩ := Words.length_split_le text
  have split := @pushParts_cases objects bases { M with memory := M.memory.popped } (Words.split text) wf'
    nested' room arrays strings (by omega) fun part mem => by
      have := short part mem
      omega
  have run : splitString M = pushParts (Words.split text) { M with memory := M.memory.popped } := by
    rw [splitString_eq, run_bind_ok (popString_eq top string)]
  rw [run]
  exact split

/-- Where there is room for the Array and for the Strings, splitting succeeds. -/
theorem splitString_of_room
    (room : 11 + (Words.split text).length * 4 + volumeOf (Words.split text) ≤ M.memory.space.free)
    (e : MachineError) (M' : Machine) : splitString M ≠ .error e M' := by
  intro failed
  obtain ⟨_, _, ⟨_, _, -, full, -⟩ | ⟨_, _, _, done, -⟩⟩ :=
    splitString_cases arrays strings wf nested words top string
  · exact absurd room (Nat.not_le.2 full)
  · cases failed.symm.trans done

end Splitting

/-- **Splitting a String.**  Take a machine that knows the classes of the library, as new ones do,
    and has a String on top of its stack, above the bookkeeping of the innermost frame.  The
    service finds no room and leaves the stack as it is without the String, or has put an Array
    in its place whose elements are new Strings, all different, that hold the parts of the text in
    their order.  In both cases everything else is there as before, moved at most. -/
theorem split_gives_the_parts {setup : Setup} {m₀ m : Machine} {id : Word} {entry : ServiceEntry}
    {s : Ref} (made : Machine.new setup = .ok m₀) (known : m.known = m₀.known)
    (classes : m₀.memory.classes.size ≤ m.memory.classes.size)
    (listed : m.services.get? id = some entry) (split : entry.service = .stringSplit)
    (wf : m.memory.WellFormed objects) (nested : m.memory.stack.Nested bases)
    (words : m.memory.stack.HasWords 1) (top : m.memory.peekRef 0 = .ok s)
    (string : stringValue m.memory s = .ok text) :
    ∃ m' φ, m.memory.popped.Carries m' objects bases φ ∧ m'.stack.bp = m.memory.stack.bp ∧
      m'.program = m.memory.program ∧
      ((∃ need available, invoke id m =
            .error (.memory (.outOfMemory need available)) { m with memory := m' } ∧
          m'.stack.sp = m.memory.stack.sp - 4) ∨
        ∃ (array : Ref) (parts : List (Ref × List UInt8)),
          invoke id m = .ok () { m with memory := m' } ∧
          m'.stack.sp = m.memory.stack.sp ∧ m'.peekRef 0 = .ok array ∧
          m'.Has ⟨array, m.known.array, .refs (parts.map Prod.fst)⟩ ∧
          parts.map Prod.snd = Words.split text ∧
          (∀ part ∈ parts, m'.Has ⟨part.1, m.known.string, .bytes part.2⟩) ∧
          (array :: parts.map Prod.fst).Nodup ∧
          ∀ a, (m.memory.popped.graph objects).Reachable a → φ a ∉ array :: parts.map Prod.fst) := by
  obtain ⟨arrays, strings⟩ : (∃ c, m.memory.classOrNull m.known.array = .ok c) ∧
      ∃ c, m.memory.classOrNull m.known.string = .ok c := by
    obtain ⟨_, new⟩ := isNew_of_new made
    have few : 7 ≤ m.memory.classes.size := new.classes.ge.trans classes
    rw [known, new.known]
    exact ⟨classOrNull_of_lt (show 2 < _ by omega), classOrNull_of_lt (show 4 < _ by omega)⟩
  have run : invoke id m = splitString (m.noted (.service entry.id entry.name)) := by
    rw [invoke_eq listed, split]
    rfl
  rw [run]
  obtain ⟨m', φ, ⟨need, available, failed, -, carries, sp, bp, program⟩ |
      ⟨objects', array, parts, done, texts, filling⟩⟩ :=
    @splitString_cases _ _ _ _ (m.noted (.service entry.id entry.name)) arrays strings
      ⟨wf.sound, wf.graph⟩ nested words top string
  · exact ⟨m', φ, { carries with }, bp, program, Or.inl ⟨need, available, failed, sp⟩⟩
  · have work := filling.work
    have refs : (arrayItem m.known array parts 0 :: parts.map (partItem m.known)).map Item.ref =
        array :: parts.map Prod.fst := by simp [arrayItem, partItem, Function.comp_def]
    have first := work.has _ List.mem_cons_self
    simp only [arrayItem, List.replicate_zero, List.append_nil] at first
    refine ⟨m', φ, { work.carries with }, filling.bp, work.program, Or.inr ⟨array, parts, done, ?_,
      filling.peekRef_eq, first, texts, ?_, refs ▸ work.nodup, ?_⟩⟩
    · have enough := (word_of_peekRef top).1
      rw [filling.sp]
      exact Nat.sub_add_cancel enough
    · intro part mem
      exact work.has _ (List.mem_cons_of_mem _ (List.mem_map_of_mem mem))
    · intro a reach mem
      rw [← refs] at mem
      obtain ⟨i, listed, same⟩ := List.mem_map.1 mem
      exact work.fresh a reach i listed same.symm

/-- A String in two parts, on a new machine. -/
theorem split_two_words : ∃ m₀ m₁ m₂ s objects m' φ, Machine.new modestSetup = .ok m₀ ∧
    newString [97, 32, 98] m₀ = .ok s m₁ ∧ (pushRef s : Run Unit) m₁ = .ok () m₂ ∧
    m₂.memory.popped.Carries m' objects [] φ ∧
    ∃ array first second, invoke 12 m₂ = .ok () { m₂ with memory := m' } ∧
      m'.peekRef 0 = .ok array ∧ m'.Has ⟨array, m₂.known.array, .refs [first, second]⟩ ∧
      m'.Has ⟨first, m₂.known.string, .bytes [97]⟩ ∧
      m'.Has ⟨second, m₂.known.string, .bytes [98]⟩ := by
  obtain ⟨m₀, made⟩ := Machine.exists_new (show modestSetup.settings.validate = .ok () from rfl)
    (by decide) (by decide)
  obtain ⟨objects, new⟩ := isNew_of_new made
  have free : 1200 ≤ m₀.memory.space.free + 351 := new.half_le_free
  have room : 11 + [97, 32, 98].length ≤ m₀.memory.space.free := by
    change 14 ≤ _
    omega
  obtain ⟨c, known⟩ := new.exists_string
  obtain ⟨s, m₁, run, adds⟩ := newString_of_room new.wf.sound known
    (show ([97, 32, 98] : List UInt8).length < wordLimit by decide) room
  have wf₁ := adds.wellFormed new.wf (classOrNull_mem known) nofun
  have nested₁ : m₁.stack.Nested [] := adds.stack ▸ new.nested
  have room₁ : m₁.stack.sp + 4 ≤ m₁.stack.bytes.size := by
    rw [adds.stack, new.sp, new.stack_size]
    decide
  let m₂ : Machine := { m₀ with memory := { m₁ with stack := m₁.stack.pushed s.word } }
  have pushed : (pushRef s : Run Unit) { m₀ with memory := m₁ } = .ok () m₂ :=
    Lockstep.onMemory_ok (Memory.pushRef_eq room₁)
  have nested₂ : m₂.memory.stack.Nested [] := nested₁.pushed room₁ s.word
  have wf₂ : m₂.memory.WellFormed (insert s objects) :=
    wellFormed_pushed wf₁ nested₁ room₁ (Or.inl (Set.mem_insert s objects))
  have top₂ : m₂.memory.peekRef 0 = .ok s :=
    peekRef_eq (Nat.le_add_left 4 _) (Bytes.word?_overwrite_self _ _ _ room₁)
  have string : stringValue m₂.memory s = .ok [97, 32, 98] :=
    (adds.holds new.wf.sound.start_le_top).stringValue_eq adds.sound
  have words : m₂.memory.stack.HasWords 1 := hasWords_of_nested_nil nested₂ 1
  have listed : m₂.services.get? 12 = some ⟨12, "str-split", .stringSplit⟩ := by
    change m₀.services.get? 12 = _
    rw [new.services]
    rfl
  have classes : m₀.memory.classes.size ≤ m₂.memory.classes.size :=
    (congrArg Array.size adds.classes).ge
  obtain ⟨m', φ, carries, -, -, outcome⟩ := split_gives_the_parts made (show m₂.known = _ from rfl)
    classes listed rfl wf₂ nested₂ words top₂ string
  have registered : ∀ id, m₂.memory.classOrNull id = m₀.memory.classOrNull id :=
    classOrNull_congr adds.classes
  have enough : 43 ≤ m₂.memory.space.free := by
    have taken : m₁.space.free + 14 = m₀.memory.space.free := adds.free_eq new.wf.sound
    change 43 ≤ m₁.space.free
    omega
  refine ⟨m₀, _, m₂, s, _, m', φ, made, run, pushed, carries, ?_⟩
  rcases outcome with ⟨need, available, failed, -⟩ | ⟨array, parts, done, -, on_top, holds, texts, each, -⟩
  · refine absurd ((invoke_eq listed).symm.trans failed) (@splitString_of_room _ _ _ _
      (m₂.noted (.service 12 "str-split")) (new.exists_array.imp fun _ => (registered _).trans)
      (new.exists_string.imp fun _ => (registered _).trans) ⟨wf₂.sound, wf₂.graph⟩ nested₂ words top₂
      string enough _ _)
  · have two : parts.map Prod.snd = [[97], [98]] := texts
    obtain ⟨⟨first, _⟩, rest, rfl, rfl, one⟩ := List.map_eq_cons_iff.1 two
    obtain ⟨⟨second, _⟩, rest, rfl, rfl, none⟩ := List.map_eq_cons_iff.1 one
    obtain rfl := List.map_eq_nil_iff.1 none
    exact ⟨array, first, second, done, on_top, holds, each _ List.mem_cons_self,
      each _ (List.mem_cons_of_mem _ List.mem_cons_self)⟩

/-! ### A String in the place of a return address -/

/-- Another word in the place of the top one leaves the frames as they are. -/
theorem nested_replaced {s : FrameStack} (nested : s.Nested bases) (some_ : 4 ≤ s.sp) (w : Word) :
    (s.dropped.pushed w).Nested bases := by
  have sp : s.sp - 4 + 4 = s.sp := Nat.sub_add_cancel some_
  have fits := nested.bounded.sp_le
  have size : (s.dropped.pushed w).bytes.size = s.bytes.size := Bytes.size_overwrite _ _ _
  refine ⟨⟨?_, ?_, ?_⟩, ?_, ?_, ?_⟩
  · rw [size]
    exact nested.bounded.addressable
  · rw [size]
    exact sp.trans_le fits
  · intro open_
    rw [size]
    exact nested.bounded.bp_le open_
  · exact (congrArg (· % 4) sp).trans nested.aligned
  · refine nested.linked.congr fun base mem => ?_
    have := nested.below base mem
    refine Bytes.word?_overwrite_of_apart _ _ _ _ ?_ (Or.inl ?_)
    · rw [Word.length_bytes]
      exact sp.trans_le fits
    · change base + 4 ≤ s.sp - 4
      omega
  · intro base mem
    exact (nested.below base mem).trans sp.ge

/-- **An Array that is not a root.**  The String is in the place of the only frame's return address,
    and so is the Array that is being filled.  There is room for the Array, but a collection is
    needed for its element; since the words of the bookkeeping are no references, the Array is not
    found after it. -/
theorem splitString_loses_array {M : Machine} {base : Memory} {s : Ref}
    (wf₀ : base.WellFormed objects) (grows : base.Grows M.memory)
    (arrays : ∃ c, M.memory.classOrNull M.known.array = .ok c)
    (strings : ∃ c, M.memory.classOrNull M.known.string = .ok c)
    (nested : M.memory.stack.Nested [0]) (sp : M.memory.stack.sp = 8)
    (top : M.memory.peekRef 0 = .ok s) (string : stringValue M.memory s = .ok [])
    (free : M.memory.space.free = 15)
    (enough : base.space.top - base.space.activeStart + 11 ≤ M.memory.space.half) :
    ∃ array M', splitString M = .error (.memory (.invalidObject array)) M' := by
  obtain ⟨c, arrays⟩ := arrays
  obtain ⟨d, strings⟩ := strings
  have some_ : 4 ≤ M.memory.stack.sp := by omega
  obtain ⟨array, m₁, made, adds⟩ :=
    @newArray_of_room { M with memory := M.memory.popped } c grows.sound arrays 1 free.ge
  have stack₁ : m₁.stack = M.memory.stack.dropped := adds.stack
  have room : m₁.stack.sp + 4 ≤ m₁.stack.bytes.size := by
    rw [stack₁]
    have := nested.bounded.sp_le
    change M.memory.stack.sp - 4 + 4 ≤ M.memory.stack.bytes.size
    omega
  let m₂ : Memory := { m₁ with stack := m₁.stack.pushed array.word }
  have pushed : (pushRef array : Run Unit) { M with memory := m₁ } = .ok () { M with memory := m₂ } :=
    Lockstep.onMemory_ok (Memory.pushRef_eq room)
  have stack₂ : m₂.stack = M.memory.stack.dropped.pushed array.word :=
    congrArg (FrameStack.pushed · array.word) stack₁
  have nested₂ : m₂.stack.Nested [0] := stack₂ ▸ nested_replaced nested some_ _
  have sp₂ : m₂.stack.sp = 8 := by
    rw [stack₂]
    change M.memory.stack.sp - 4 + 4 = 8
    omega
  have grows₁ : M.memory.Grows m₁ := { adds.grows with }
  have grows₂ : base.Grows m₂ := (grows.trans grows₁).withStack _
  have wf₂ : m₂.WellFormed objects := by
    refine grows₂.wellFormed wf₀ fun a live => ?_
    rw [nested₂.liveWords_of_bare sp₂] at live
    cases live
  -- the Array takes all that was free
  have half : m₂.space.half = M.memory.space.half := grows₁.half_eq grows.sound
  have start : m₂.space.activeStart = M.memory.space.activeStart := adds.start
  have last : m₂.space.top = M.memory.space.top + 15 := adds.top
  have full : m₂.space.free < ObjectKind.bytes.objectBytes 0 := by
    unfold SemiSpaces.free SemiSpaces.activeEnd at free ⊢
    change _ < 11
    omega
  have strings₂ : m₂.classOrNull M.known.string = .ok d := (classOrNull_congr adds.classes _).trans strings
  obtain ⟨m₃, φ, r, m₄, collected, copied, -, allocated, adds₄⟩ :=
    allocateObject_of_full wf₀ grows₂ wf₂ nested₂.whole.readable strings₂ full (half ▸ enough)
  obtain ⟨m₅, string₅, adds₅⟩ := newBytes_of_adds (m := { M with memory := m₂ })
    (show ([] : List UInt8).length = (0 : Word).toNat from rfl) (fun addr => .newString addr [])
    copied.sound allocated adds₄
  -- what was the top word is the top word, and leads to where no objects are any more
  have gone : m₅.view array = .error (.invalidObject array) := by
    obtain ⟨exchanged, half₃⟩ := exchanged_of_collect collected
    have place : array.offset 0 = M.memory.space.top := adds.place
    have ordered := grows.sound.start_le_top
    have fits := grows₂.sound.top_le_end
    refine view_of_exchanged grows₂.sound adds₅.sound (adds₅.start.trans exchanged)
      ((adds₅.grows.half_eq copied.sound).trans half₃) (by omega) (by omega)
  have stack₅ : m₅.stack = m₂.stack := by
    obtain ⟨chain, found, moved⟩ := copied.stack
    cases nested₂.chain_eq.symm.trans found
    rw [adds₅.stack, moved, nested₂.liveOffsets_of_bare sp₂]
    rfl
  have word : m₅.stack.bytes.word? (m₅.stack.sp - 4) = some array.word := by
    rw [stack₅]
    exact Bytes.word?_overwrite_self _ _ _ room
  have some₅ : 4 ≤ m₅.stack.sp := by
    rw [stack₅, sp₂]
    decide
  have asked : Memory.query (·.peekRef 0) m₅ = .ok array m₅ := Memory.query_ok (peekRef_eq some₅ word)
  have refused : Memory.setField array 0 r.word m₅ = .error (.invalidObject array) m₅ := by
    have none_ : m₅.header array = .error (.invalidObject array) := by
      unfold Memory.header
      rw [gone]
      rfl
    exact run_bind_error (Memory.query_error none_)
  have failed : storeParts 0 [[]] { M with memory := m₂ } =
      .error (.memory (.invalidObject array)) { M with memory := m₅ } := by
    refine (run_bind_ok string₅).trans ?_
    refine (run_bind_ok (Lockstep.onMemory_ok asked)).trans ?_
    exact run_bind_error (Lockstep.onMemory_error refused)
  have popped : (popRef : Run Ref) { M with memory := m₅ } = .ok array { M with memory := m₅.popped } :=
    Lockstep.onMemory_ok (Memory.popRef_eq some₅ word)
  refine ⟨array, { M with memory := m₅.popped }, ?_⟩
  refine (run_bind_ok (popString_eq top string)).trans ((run_bind_ok made).trans ?_)
  exact run_bind_error (withRooted_error pushed failed popped)

/-- **Splitting can fail otherwise.**  On a new machine a frame is opened and its return address
    popped; an empty String is pushed in its place, and another String fills the heap up to the 15
    bytes that an Array of one element takes. -/
theorem split_fails_in_bookkeeping : ∃ m₀ m₁ m₂ m₃ m₄ m₅ s filler w objects array m', ∃ n : Nat,
    Machine.new modestSetup = .ok m₀ ∧ (newFrame 0 : Run Unit) m₀ = .ok () m₁ ∧
    (popWord : Run Word) m₁ = .ok w m₂ ∧ newString [] m₂ = .ok s m₃ ∧
    newString (List.replicate n 0) m₃ = .ok filler m₄ ∧ (pushRef s : Run Unit) m₄ = .ok () m₅ ∧
    m₅.memory.WellFormed objects ∧ m₅.memory.peekRef 0 = .ok s ∧ stringValue m₅.memory s = .ok [] ∧
    invoke 12 m₅ = .error (.memory (.invalidObject array)) m' := by
  obtain ⟨m₀, made⟩ := Machine.exists_new (show modestSetup.settings.validate = .ok () from rfl)
    (by decide) (by decide)
  obtain ⟨objects, new⟩ := isNew_of_new made
  obtain ⟨c, strings⟩ := new.exists_string
  have free : 1200 ≤ m₀.memory.space.free + 351 := new.half_le_free
  have half : m₀.memory.space.half = 1200 := new.half
  have library : m₀.memory.space.top ≤ m₀.memory.space.activeStart + 351 := new.top
  have ordered := new.wf.sound.start_le_top
  -- the frame without its return address
  have frame : m₀.memory.stack.sp + 8 ≤ m₀.memory.stack.bytes.size := by
    rw [new.sp, new.stack_size]
    decide
  let s₁ := m₀.memory.stack.opened m₀.memory.pc
  have nested₁ : s₁.Nested [0] := new.sp ▸ new.nested.opened frame m₀.memory.pc
  have sp₁ : s₁.sp = 8 := congrArg (· + 8) new.sp
  have some₁ : 4 ≤ s₁.sp := by omega
  have fits₁ := nested₁.bounded.sp_le
  obtain ⟨w, word⟩ : ∃ w, s₁.bytes.word? (s₁.sp - 4) = some w :=
    (Bytes.word?_eq_some_iff_le _ _).2 (by omega)
  have opened : (newFrame 0 : Run Unit) m₀ = .ok () { m₀ with memory := { m₀.memory with stack := s₁ } } :=
    Lockstep.onMemory_ok (Memory.newFrame_eq frame)
  let m₂ : Machine := { m₀ with memory := { m₀.memory with stack := s₁.dropped } }
  have popped : (popWord : Run Word) { m₀ with memory := { m₀.memory with stack := s₁ } } = .ok w m₂ := by
    have pop : Memory.popWord { m₀.memory with stack := s₁ } = .ok w m₂.memory :=
      Memory.onStack_ok (FrameStack.pop_eq some₁ word)
    exact Lockstep.onMemory_ok pop
  -- the String, and the one that fills the heap
  obtain ⟨s, m₃, made₃, adds₃⟩ := @newString_of_room m₂ c new.wf.sound strings [] (by decide) (by
    change 11 ≤ m₀.memory.space.free
    omega)
  have free₃ : m₃.space.free + 11 = m₀.memory.space.free := adds₃.free_eq new.wf.sound
  have top₃ : m₃.space.top = m₀.memory.space.top + 11 := adds₃.top
  have start₃ : m₃.space.activeStart = m₀.memory.space.activeStart := adds₃.start
  have half₃ : m₃.space.half = 1200 := (adds₃.grows.half_eq new.wf.sound).trans half
  have few : m₀.memory.space.free ≤ 1200 := by
    unfold SemiSpaces.free SemiSpaces.activeEnd
    omega
  obtain ⟨n, count⟩ : ∃ n, n + 26 = m₃.space.free := ⟨m₃.space.free - 26, by omega⟩
  have length : (List.replicate n (0 : UInt8)).length = n := List.length_replicate
  obtain ⟨filler, m₄, made₄, adds₄⟩ := @newString_of_room { m₂ with memory := m₃ } c adds₃.sound
    ((classOrNull_congr adds₃.classes _).trans strings) (List.replicate n 0)
    (by unfold wordLimit; omega) (by dsimp only; omega)
  have stack₄ : m₄.stack = s₁.dropped := adds₄.stack.trans adds₃.stack
  have room : m₄.stack.sp + 4 ≤ m₄.stack.bytes.size := by
    rw [stack₄]
    change s₁.sp - 4 + 4 ≤ s₁.bytes.size
    omega
  let m₅ : Memory := { m₄ with stack := m₄.stack.pushed s.word }
  have pushed : (pushRef s : Run Unit) { m₂ with memory := m₄ } = .ok () { m₂ with memory := m₅ } :=
    Lockstep.onMemory_ok (Memory.pushRef_eq room)
  have stack₅ : m₅.stack = s₁.dropped.pushed s.word := congrArg (FrameStack.pushed · s.word) stack₄
  have nested₅ : m₅.stack.Nested [0] := stack₅ ▸ nested_replaced nested₁ some₁ _
  have sp₅ : m₅.stack.sp = 8 := by
    rw [stack₅]
    change s₁.sp - 4 + 4 = 8
    omega
  have string : m₄.Holds s c (.bytes []) := adds₄.holds_below (adds₃.holds ordered)
  -- the objects of the new machine and the String are in order, whatever is behind them
  let base : Memory := { m₃ with stack := m₀.memory.stack }
  have with_string : m₀.memory.Adds base s c (.bytes []) := { adds₃ with stack := rfl }
  have wf := with_string.wellFormed new.wf (classOrNull_mem strings) nofun
  have grows : base.Grows m₅ := { adds₄.grows with }
  have wf₅ : m₅.WellFormed (insert s objects) := by
    refine grows.wellFormed wf fun a live => ?_
    rw [nested₅.liveWords_of_bare sp₅] at live
    cases live
  have top₅ : m₅.peekRef 0 = .ok s := by
    refine peekRef_eq (by omega) ?_
    exact Bytes.word?_overwrite_self _ _ _ room
  have text : stringValue m₅ s = .ok [] := string.stringValue_eq adds₄.sound
  have half₅ : m₅.space.half = 1200 := (adds₄.grows.half_eq adds₃.sound).trans half₃
  have free₅ : m₅.space.free = 15 := by
    have taken : m₅.space.free + (11 + (List.replicate n (0 : UInt8)).length) = m₃.space.free :=
      adds₄.free_eq adds₃.sound
    omega
  have enough : base.space.top - base.space.activeStart + 11 ≤ m₅.space.half := by
    have top : base.space.top = m₃.space.top := rfl
    have start : base.space.activeStart = m₃.space.activeStart := rfl
    omega
  have registered : ∀ id, m₅.classOrNull id = m₀.memory.classOrNull id :=
    classOrNull_congr (adds₄.classes.trans adds₃.classes)
  let m : Machine := { m₂ with memory := m₅ }
  obtain ⟨array, m', failed⟩ := @splitString_loses_array _ (m.noted (.service 12 "str-split")) _ s wf
    { grows with } (new.exists_array.imp fun _ => (registered _).trans)
    (new.exists_string.imp fun _ => (registered _).trans) nested₅ sp₅ top₅ text free₅ enough
  have listed : m.services.get? 12 = some ⟨12, "str-split", .stringSplit⟩ := by
    change m₀.services.get? 12 = _
    rw [new.services]
    rfl
  exact ⟨m₀, _, m₂, _, _, m, s, filler, w, _, array, m', n, made, opened, popped, made₃, made₄, pushed,
    wf₅, top₅, text, (invoke_eq listed).trans failed⟩

end Machine

end ObjectMachine
