/-
  ObjectMachine/Proofs/ObjectAccess.lean
  ======================================
  **Two opinions on what an object is** — that of the memory, which programs ask, and that
  of the collector.

  Both want a header in the allocated part of the active half.  The collector also wants the
  rest of the object there; the memory is content if the rest lies in the buffer.  So they
  part over the headers whose object runs past the allocation cursor.  No allocation makes
  one, but bytes stored in an object may look like one, and a write through it then reaches
  bytes that were never allocated.

  Everything is proved of the memories that operations lead to from a new one, of which it
  is only used that their heaps are sound.
-/
import ObjectMachine.Proofs.CollectorSafety
import ObjectMachine.Proofs.MemoryOperations
import ObjectMachine.Proofs.StackRuns

namespace ObjectMachine

/-! ### Collections of any memory -/

namespace Evacuation

section Keeps

variable {α β : Type} {P : Evacuation → Prop}

/-- If `P` holds before a step of a collection and the step ends, `P` holds after it. -/
def Keeps (P : Evacuation → Prop) (x : Run α) : Prop :=
  ∀ e r e', P e → x e = .ok (r, e') → P e'

theorem keeps_pure (a : α) : Keeps P (pure a) := by
  intro e r e' holds run
  cases run
  exact holds

theorem Keeps.bind {x : Run α} {f : α → Run β} (hx : Keeps P x) (hf : ∀ a, Keeps P (f a)) :
    Keeps P (x >>= f) := by
  intro e r e' holds run
  obtain ⟨a, e₁, first, rest⟩ := bind_eq_ok run
  exact hf a e₁ r e' (hx e a e₁ holds first) rest

theorem keeps_mapM {f : α → Run β} (hf : ∀ a, Keeps P (f a)) (xs : List α) : Keeps P (xs.mapM f) := by
  induction xs with
  | nil => exact keeps_pure _
  | cons x xs ih =>
    rw [List.mapM_cons]
    exact (hf x).bind fun _ => ih.bind fun _ => keeps_pure _

theorem keeps_foldlM {f : β → α → Run β} (hf : ∀ b a, Keeps P (f b a)) (xs : List α) :
    ∀ b, Keeps P (xs.foldlM f b) := by
  induction xs with
  | nil => exact fun b => keeps_pure b
  | cons x xs ih =>
    intro b
    rw [List.foldlM_cons]
    exact (hf b x).bind ih

theorem keeps_visitWords {visit : Word → Run Word} (h : ∀ w, Keeps P (visit w)) (s : FrameStack) :
    Keeps P (s.visitWords visit) := by
  unfold FrameStack.visitWords
  split
  · intro e r e' _ run
    cases run
  · refine keeps_foldlM (fun s offset => ?_) _ s
    unfold FrameStack.visitAt
    split
    · intro e r e' _ run
      cases run
    · refine (h _).bind fun after => ?_
      split <;> exact keeps_pure _

end Keeps

variable {s : SemiSpaces}

theorem keeps_forwardRoot (sound : s.Sound) (kind : RootKind) (slot : Ref) :
    Keeps (Contained s) (forwardRoot kind slot) := by
  intro e r e' contained run
  have progress : Progress s False s.inactiveStart e := ⟨contained, False.elim⟩
  obtain ⟨slot', e₁, run₁, progress₁⟩ := forwardRoot_progress sound progress kind slot
  cases run₁.symm.trans run
  exact progress₁.toContained

/-- What visiting one root keeps, visiting the roots of a memory keeps. -/
theorem keeps_visitRoots {P : Evacuation → Prop}
    (root : ∀ kind slot, Keeps P (forwardRoot kind slot)) (report : ∀ event, Keeps P (note event))
    (m : Memory) :
    Keeps P (Memory.visitRoots m.classes m.dictionaries m.stack forwardRoot) := by
  have table : ∀ (kind : RootKind) (slots : Array Ref),
      Keeps P (slots.mapM (forwardRoot kind)) := by
    intro kind slots
    rw [Array.mapM_eq_mapM_toList]
    exact (keeps_mapM (root kind) slots.toList).bind fun _ => keeps_pure _
  unfold Memory.visitRoots
  refine (table .classTable m.classes).bind fun classes => ?_
  refine (table .dictionaryTable m.dictionaries).bind fun dictionaries => ?_
  have words : Keeps P (do
      let stack ← m.stack.visitWords fun w => do return (← forwardRoot .stack ⟨w⟩).word
      return (classes, dictionaries, stack)) := by
    refine (keeps_visitWords (fun w => ?_) m.stack).bind fun _ => keeps_pure _
    exact (root .stack ⟨w⟩).bind fun _ => keeps_pure _
  split
  · exact (report _).bind fun _ => words
  · exact words

/-- The roots of a memory, whatever they are and lead to. -/
theorem contained_visitRoots (sound : s.Sound) (m : Memory) :
    Keeps (Contained s) (Memory.visitRoots m.classes m.dictionaries m.stack forwardRoot) := by
  refine keeps_visitRoots (keeps_forwardRoot sound) (fun event e r e' contained run => ?_) m
  cases run
  exact { contained with }

end Evacuation

open Evacuation

/-- A collection that ends leaves a sound heap, whatever the roots and the bytes are. -/
theorem SemiSpaces.Sound.collect {s : SemiSpaces} {ρ : Type} (sound : s.Sound)
    {stats : CollectionStats} {journal : Journal}
    {visitRoots : (RootKind → Ref → Evacuation.Run Ref) → Evacuation.Run ρ}
    (visit : Keeps (Contained s) (visitRoots forwardRoot)) {r : Collected ρ}
    (run : ObjectMachine.collect s stats journal visitRoots = .ok r) : r.space.Sound := by
  cases visited : visitRoots forwardRoot (Evacuation.ofSpaces s journal) with
  | error cause =>
    unfold ObjectMachine.collect StateT.run at run
    dsimp only at run
    rw [visited] at run
    cases run
  | ok p =>
    obtain ⟨values, e₁⟩ := p
    have contained₁ := visit _ _ _ (Contained.ofSpaces s journal) visited
    have safe := scan_safe sound e₁.toEnd (⟨contained₁, False.elim⟩ : Progress s False _ e₁)
      (Nat.le_refl _) False.elim
    cases scanned : scan e₁.toEnd s.inactiveStart e₁ with
    | error cause =>
      rw [collect_eq_error visited scanned] at run
      cases run
    | ok q =>
      rw [scanned] at safe
      have contained : Contained s q.2 := safe
      have low := contained.start_le_free
      have high := contained.free_le_end.trans_eq contained.toEnd_eq
      rw [collect_eq_ok visited scanned low high] at run
      cases run
      have copied : Sound { s with bytes := q.2.bytes } :=
        sound.mapBytes (f := fun _ => q.2.bytes) contained.size_eq
      exact copied.flipped low high

namespace Memory

/-! ### Operations -/

/-- What can be stored in an object. -/
inductive Write where
  | field (index : Nat) (value : Word)
  | classRef (c : Ref)
  | payload (start : Nat) (xs : List UInt8)

/-- Stores something in the object at an address; what it gives is left out. -/
def Write.run (addr : Ref) : Write → Run Unit
  | field index value => do let _ ← setField addr index value
  | classRef c => setClass addr c
  | payload start xs => do let _ ← setPayload addr start xs

/-- What can be done with a memory, questions aside. -/
inductive Operation where
  | allocate (size : Nat)
  | allocateObject (kind : ObjectKind) (size : Word) (classId : Option ClassId)
  | collect
  | write (addr : Ref) (content : Write)
  | pushWord (w : Word)
  | popWord
  | newFrame (locals : Word)
  | discardFrame
  | setArg (index : Word) (value : Ref)
  | setLocal (index : Word) (value : Ref)
  | storeCode (code : List UInt8)
  | setPc (pc : CodeAddress)
  | fetchByte
  | fetchWord
  | addMethod (method : Method)
  | addConstant (c : Constant)
  | registerClass (addr : Ref)
  | registerDictionary (addr : Ref)

namespace Operation

/-- Carries out an operation; what it gives is left out. -/
def run : Operation → Run Unit
  | allocate size => do let _ ← Memory.allocate size
  | allocateObject kind size classId => do let _ ← Memory.allocateObject kind size classId
  | collect => Memory.collect
  | write addr content => content.run addr
  | pushWord w => Memory.pushWord w
  | popWord => do let _ ← Memory.popWord
  | newFrame locals => Memory.newFrame locals
  | discardFrame => do let _ ← Memory.discardFrame
  | setArg index value => Memory.setArg index value
  | setLocal index value => Memory.setLocal index value
  | storeCode code => do let _ ← Memory.storeCode code
  | setPc pc => Memory.setPc pc
  | fetchByte => do let _ ← Memory.fetchByte
  | fetchWord => do let _ ← Memory.fetchWord
  | addMethod method => do let _ ← Memory.addMethod method
  | addConstant c => do let _ ← Memory.addConstant c
  | registerClass addr => do let _ ← Memory.registerClass addr
  | registerDictionary addr => do let _ ← Memory.registerDictionary addr

end Operation

/-- The memory after an operation, which may have failed. -/
def after (m : Memory) (operation : Operation) : Memory := endState (operation.run m)

/-- The memories that operations lead to. -/
inductive Reached : Memory → Prop where
  | new {settings : Settings} {level : Option Level} {m : Memory}
      (made : Memory.new settings level = .ok m) : Reached m
  | after {m : Memory} (before : Reached m) (operation : Operation) : Reached (m.after operation)

/-! ### What every operation keeps -/

/-- **A property that lasts**: it speaks of the heap, the stack and the code only, and each step
    that operations are made of keeps it. -/
structure Stable (P : Memory → Prop) : Prop where
  beside : ∀ {m m' : Memory}, P m → m'.space = m.space → m'.stack = m.stack → m'.code = m.code → P m'
  heap : ∀ {f : Bytes → Bytes}, (∀ b, (f b).size = b.size) → Preserves P (modifyHeap f)
  bump : ∀ size, Preserves P (onSpace (SemiSpaces.bump size))
  collect : Preserves P Memory.collect
  stack : ∀ {α : Type} {act : FrameStack.Run α}, Preserves FrameStack.Bounded act →
    Preserves P (onStack act)
  code : ∀ code, Preserves P (storeCode code)

namespace Stable

variable {α : Type} {P : Memory → Prop}

theorem query (f : Memory → Except MemoryError α) : Preserves P (query f) := by
  intro m holds
  unfold Memory.query
  split <;> exact holds

variable (stable : Stable P)
include stable

theorem allocate (size : Nat) : Preserves P (Memory.allocate size) := by
  refine (stable.bump size).bind fun found => ?_
  cases found with
  | some addr => exact Preserves.pure addr
  | none =>
    refine stable.collect.bind fun _ => (stable.bump size).bind fun found => ?_
    cases found with
    | some addr => exact Preserves.pure addr
    | none => exact Preserves.get_bind fun _ => Preserves.throw _

theorem overwrite (start : Nat) (xs : List UInt8) :
    Preserves P (modifyHeap fun b => b.overwrite start xs) :=
  stable.heap fun _ => Bytes.size_overwrite _ _ _

theorem writeHeader (addr : Ref) (header : Header) : Preserves P (writeHeader addr header) := by
  refine Preserves.get_bind fun m => ?_
  split
  · exact (Preserves.throw _).bind fun _ => stable.overwrite _ _
  · exact stable.overwrite _ _

theorem allocateObject (kind : ObjectKind) (size : Word) (classId : Option ClassId) :
    Preserves P (Memory.allocateObject kind size classId) := by
  rw [allocateObject_eq]
  refine (query _).bind fun _ => (stable.allocate _).bind fun addr => ?_
  refine (query _).bind fun c => (stable.writeHeader addr _).bind fun _ => ?_
  split
  · refine (query _).bind fun _ => ?_
    exact (stable.overwrite _ _).bind fun _ => Preserves.pure addr
  · exact Preserves.pure addr

theorem write (addr : Ref) (write : Write) : Preserves P (write.run addr) := by
  cases write with
  | field index value =>
    refine ((query _).bind fun header => ?_).bind fun _ => Preserves.pure ()
    split
    · exact (stable.overwrite _ _).bind fun _ => Preserves.pure _
    · exact Preserves.pure _
  | classRef c => exact (query _).bind fun _ => stable.overwrite _ _
  | payload start xs =>
    refine ((query _).bind fun header => ?_).bind fun _ => Preserves.pure ()
    split
    · exact (stable.overwrite _ _).bind fun _ => Preserves.pure _
    · exact Preserves.pure _

theorem setPc (pc : CodeAddress) : Preserves P (Memory.setPc pc) :=
  fun _ holds => stable.beside holds rfl rfl rfl

/-- An operation on the stack, whose own bounds it keeps. -/
theorem onStack (op : FrameStack.Operation) : Preserves P (Memory.onStack op.run) :=
  stable.stack fun _ bounded => op.bounded_end bounded

/-- An operation on the stack that gives something. -/
theorem onStack_giving {act : FrameStack.Run α} {op : FrameStack.Operation}
    (same : op.run = do let _ ← act) : Preserves P (Memory.onStack act) := by
  refine stable.stack fun s bounded => ?_
  rw [← endState_ignored act s, ← same]
  exact op.bounded_end bounded

/-- **One operation.** -/
theorem run (operation : Operation) : Preserves P operation.run := by
  have ignored : ∀ {β : Type} {x : Run β}, Preserves P x → Preserves P (do let _ ← x) :=
    fun h => h.bind fun _ => Preserves.pure ()
  cases operation with
  | allocate size => exact ignored (stable.allocate size)
  | allocateObject kind size classId => exact ignored (stable.allocateObject kind size classId)
  | collect => exact stable.collect
  | write addr content => exact stable.write addr content
  | pushWord w => exact stable.onStack (.push w)
  | popWord => exact ignored (stable.onStack_giving (rfl : FrameStack.Operation.pop.run = _))
  | newFrame locals => exact Preserves.get_bind fun m => stable.onStack (.newFrame locals m.pc)
  | discardFrame => exact ignored (stable.onStack_giving (rfl : FrameStack.Operation.discardFrame.run = _))
  | setArg index value => exact stable.onStack (.setArg index value)
  | setLocal index value => exact stable.onStack (.setLocal index value)
  | storeCode code => exact ignored (stable.code code)
  | setPc pc => exact stable.setPc pc
  | fetchByte =>
    refine ignored (Preserves.get_bind fun _ => (query _).bind fun x => ?_)
    exact (stable.setPc _).bind fun _ => Preserves.pure x
  | fetchWord =>
    refine ignored (Preserves.get_bind fun _ => (query _).bind fun w => ?_)
    exact (stable.setPc _).bind fun _ => Preserves.pure w
  | addMethod | addConstant | registerClass | registerDictionary =>
    exact fun _ holds => stable.beside holds rfl rfl rfl

/-- **Every run.** -/
theorem reached (new : ∀ {settings level m}, Memory.new settings level = .ok m → P m) {m : Memory}
    (reached : m.Reached) : P m := by
  induction reached with
  | new made => exact new made
  | after before operation holds => exact stable.run operation _ holds

end Stable

/-! ### Heaps stay sound -/

/-- The heap of a memory is sound. -/
def HeapSound (m : Memory) : Prop := m.space.Sound

theorem heapSound_collect : Preserves HeapSound collect := by
  intro m sound
  unfold collect
  cases run : m.collected with
  | error cause => exact sound
  | ok m' =>
    obtain ⟨r, collected, finished⟩ := exists_of_bind_eq_ok run
    cases finished
    exact sound.collect (contained_visitRoots sound m) collected

theorem stable_heapSound : Stable HeapSound where
  beside sound space _ _ := by
    unfold HeapSound
    rw [space]
    exact sound
  heap size _ sound := SemiSpaces.Sound.mapBytes sound (size _)
  bump size _ sound := SemiSpaces.Sound.bump sound size
  collect := heapSound_collect
  stack _ m sound := by
    unfold onStack
    dsimp only
    split <;> exact sound
  code code m sound := by
    unfold storeCode
    split <;> exact sound

theorem Reached.heapSound {m : Memory} (reached : m.Reached) : m.space.Sound := by
  refine stable_heapSound.reached (fun made => ?_) reached
  obtain ⟨⟨⟩, valid, finished⟩ := exists_of_bind_eq_ok made
  cases finished
  exact SemiSpaces.sound_new valid

/-! ### The two opinions -/

/-- The header that a collection would find at an address. -/
def sourceHeader? (m : Memory) (addr : Ref) : Option Header :=
  (Evacuation.ofSpaces m.space m.journal).sourceHeader? addr

/-- There is an object at an address, for the memory, and it runs past the allocation cursor. -/
def Overruns (m : Memory) (addr : Ref) : Prop :=
  ∃ header, m.header addr = .ok header ∧ m.space.top < addr.offset header.objectBytes

section Opinions

variable {m : Memory} {addr : Ref} {header : Header}

theorem header_eq_ok_iff : m.header addr = .ok header ↔
    Header.read? m.space.bytes addr = some header ∧ m.space.activeStart ≤ addr.offset 0 ∧
      addr.offset 11 ≤ m.space.top ∧ addr.offset header.objectBytes ≤ m.space.bytes.size := by
  constructor
  · intro found
    unfold Memory.header Memory.view at found
    split at found
    · cases found
    split at found
    · rename_i allocated
      unfold SemiSpaces.isAllocated at allocated
      simp only [Bool.and_eq_true, decide_eq_true_eq] at allocated
      unfold ObjectView.at? at found
      cases read : Header.read? m.space.bytes addr with
      | none =>
        rw [read] at found
        cases found
      | some header' =>
        rw [read] at found
        dsimp only at found
        by_cases fits : addr.offset header'.objectBytes ≤ m.space.bytes.size
        · rw [if_pos fits] at found
          cases found
          exact ⟨rfl, allocated.1.2, allocated.2, fits⟩
        · rw [if_neg fits] at found
          cases found
    · cases found
  · rintro ⟨read, low, high, fits⟩
    exact header_of_view (view_of_read read low high fits)

theorem sourceHeader?_eq_some_iff : m.sourceHeader? addr = some header ↔
    Header.read? m.space.bytes addr = some header ∧ m.space.activeStart ≤ addr.offset 0 ∧
      addr.offset header.objectBytes ≤ m.space.top := by
  constructor
  · exact Evacuation.sourceHeader?_eq_some
  · rintro ⟨read, low, high⟩
    have nonnull := ((Header.read?_eq_some_iff _ _ _).1 read).1
    have pos := header.objectBytes_pos
    have extent : addr.offset header.objectBytes = addr.offset 0 + header.objectBytes := rfl
    have inside : ¬((addr.isNull || decide (addr.offset 0 < m.space.activeStart) ||
        decide (m.space.top ≤ addr.offset 0)) = true) := by
      simp only [Bool.or_eq_true, Ref.isNull_iff, decide_eq_true_eq, not_or]
      exact ⟨⟨nonnull, by omega⟩, by omega⟩
    unfold Memory.sourceHeader? Evacuation.sourceHeader? Evacuation.ofSpaces
    dsimp only
    rw [if_neg inside, read]
    exact if_pos high

theorem isObject_iff : m.isObject addr = true ↔ ∃ header, m.header addr = .ok header := by
  unfold isObject Memory.header
  cases m.view addr with
  | error e =>
    constructor
    · intro h
      cases h
    · rintro ⟨header, h⟩
      cases h
  | ok v => exact ⟨fun _ => ⟨v.header, rfl⟩, fun _ => rfl⟩

/-- The collector accepts what the memory accepts, but for the objects that overrun. -/
theorem sourceHeader?_iff (sound : m.space.Sound) : m.sourceHeader? addr = some header ↔
    m.header addr = .ok header ∧ ¬m.Overruns addr := by
  have top_le : m.space.top ≤ m.space.bytes.size := sound.top_le_end.trans sound.end_le_size
  rw [sourceHeader?_eq_some_iff]
  constructor
  · rintro ⟨read, low, high⟩
    have long : addr.offset 11 ≤ addr.offset header.objectBytes :=
      Nat.add_le_add_left (header_le_objectBytes header) _
    have found : m.header addr = .ok header :=
      header_eq_ok_iff.2 ⟨read, low, long.trans high, high.trans top_le⟩
    refine ⟨found, ?_⟩
    rintro ⟨header', found', past⟩
    cases found.symm.trans found'
    omega
  · rintro ⟨found, stays⟩
    obtain ⟨read, low, -, -⟩ := header_eq_ok_iff.1 found
    refine ⟨read, low, ?_⟩
    by_contra past
    exact stays ⟨header, found, by omega⟩

end Opinions

/-! ### Writes -/

section Writes

variable {m : Memory} {addr : Ref} {header : Header}

theorem setPayload_of_fits {start : Nat} {xs : List UInt8} (found : m.header addr = .ok header)
    (fits : start + xs.length ≤ header.payloadBytes) : setPayload addr start xs m = .ok true
      { m with space := m.space.mapBytes (Object.setPayload · addr start xs) } := by
  unfold setPayload
  rw [run_bind_ok (query_ok found), if_pos fits]
  rfl

theorem bytes_after_payload {start : Nat} {xs : List UInt8} (found : m.header addr = .ok header)
    (fits : start + xs.length ≤ header.payloadBytes) :
    (m.after (.write addr (.payload start xs))).space.bytes =
      m.space.bytes.overwrite (payloadOffset addr start) xs := by
  have run : (Operation.write addr (.payload start xs)).run m = .ok () { m with
      space := m.space.mapBytes (Object.setPayload · addr start xs) } :=
    run_bind_ok (setPayload_of_fits found fits)
  unfold after
  rw [run]
  rfl

/-- A write lays bytes over a part of the object, or does nothing. -/
theorem Write.run_cases (write : Write) (found : m.header addr = .ok header) :
    write.run addr m = .ok () m ∨ ∃ start xs, addr.offset 0 ≤ start ∧
      start + xs.length ≤ addr.offset header.objectBytes ∧
      write.run addr m = .ok () { m with space := m.space.mapBytes (·.overwrite start xs) } := by
  have known : query (·.header addr) m = .ok header m := query_ok found
  have bytes : header.objectBytes = 11 + header.payloadBytes := rfl
  cases write with
  | field index value =>
    by_cases has : Object.hasField header index = true
    · have stored : setField addr index value m = .ok true
          { m with space := m.space.mapBytes (Object.setField · addr index value) } := by
        unfold setField
        rw [run_bind_ok known, if_pos has]
        rfl
      refine Or.inr ⟨fieldOffset addr index, value.bytes, Nat.add_le_add_left (Nat.zero_le _) _, ?_,
        run_bind_ok stored⟩
      unfold Object.hasField at has
      simp only [Bool.and_eq_true, beq_iff_eq, decide_eq_true_eq] at has
      have payload : header.payloadBytes = header.size.toNat * 4 := by
        unfold Header.payloadBytes
        rw [has.1]
        rfl
      unfold fieldOffset Ref.offset
      rw [Word.length_bytes]
      omega
    · have refused : setField addr index value m = .ok false m := by
        unfold setField
        rw [run_bind_ok known, if_neg has]
        rfl
      exact Or.inl (run_bind_ok refused)
  | classRef c =>
    refine Or.inr ⟨addr.offset Header.classOffset, c.word.bytes,
      Nat.add_le_add_left (Nat.zero_le _) _, ?_, run_bind_ok known⟩
    unfold Ref.offset Header.classOffset
    rw [Word.length_bytes]
    omega
  | payload start xs =>
    by_cases fits : start + xs.length ≤ header.payloadBytes
    · refine Or.inr ⟨payloadOffset addr start, xs, Nat.add_le_add_left (Nat.zero_le _) _, ?_,
        run_bind_ok (setPayload_of_fits found fits)⟩
      unfold payloadOffset Ref.offset
      omega
    · have refused : setPayload addr start xs m = .ok false m := by
        unfold setPayload
        rw [run_bind_ok known, if_neg fits]
        rfl
      exact Or.inl (run_bind_ok refused)

/-- A write where there is no object is refused. -/
theorem Write.run_refused (write : Write) {e : MemoryError} (absent : m.header addr = .error e) :
    write.run addr m = .error e m := by
  have unknown : query (·.header addr) m = .error e m := query_error absent
  cases write with
  | field index value => exact run_bind_error (run_bind_error unknown)
  | classRef c => exact run_bind_error unknown
  | payload start xs => exact run_bind_error (run_bind_error unknown)

/-- A write changes bytes of the object that it is meant for, and nothing else. -/
theorem after_write (m : Memory) (addr : Ref) (write : Write) :
    ∃ bytes : Bytes, m.after (.write addr write) = { m with space := { m.space with bytes } } ∧
      bytes.size = m.space.bytes.size ∧
      ∀ i, bytes[i]? ≠ m.space.bytes[i]? → ∃ header, m.header addr = .ok header ∧
        addr.offset 0 ≤ i ∧ i < addr.offset header.objectBytes := by
  cases found : m.header addr with
  | error e =>
    refine ⟨m.space.bytes, congrArg endState (write.run_refused found), rfl, ?_⟩
    exact fun i changed => absurd rfl changed
  | ok header =>
    rcases write.run_cases found with idle | ⟨start, xs, low, high, run⟩
    · refine ⟨m.space.bytes, congrArg endState idle, rfl, ?_⟩
      exact fun i changed => absurd rfl changed
    · refine ⟨m.space.bytes.overwrite start xs, congrArg endState run, Bytes.size_overwrite _ _ _, ?_⟩
      intro i changed
      have fits := (header_eq_ok_iff.1 found).2.2.2
      rw [Bytes.getElem?_overwrite _ _ _ _ (high.trans fits)] at changed
      by_cases inside : start ≤ i ∧ i < start + xs.length
      · exact ⟨header, rfl, by omega, by omega⟩
      · rw [if_neg inside] at changed
        exact absurd rfl changed

end Writes

/-- **Access and the collector agree below the cursor.**  At every address of every memory that
    operations lead to, the memory finds an object exactly where a header stands in the
    allocated part of the active half and the object ends in the buffer.  The collector finds
    the same headers, except those of the objects that run past the cursor.  A write changes
    only bytes of the object it is meant for, all in the buffer, and all in the allocated part
    unless the object is one of these. -/
theorem access_agrees_below_cursor {m : Memory} (reached : m.Reached) (addr : Ref) :
    (m.isObject addr = true ↔ ∃ header, Header.read? m.space.bytes addr = some header ∧
        m.space.activeStart ≤ addr.offset 0 ∧ addr.offset 11 ≤ m.space.top ∧
        addr.offset header.objectBytes ≤ m.space.bytes.size) ∧
      (∀ header, m.sourceHeader? addr = some header ↔
        m.header addr = .ok header ∧ ¬m.Overruns addr) ∧
      ∀ write : Write, ∃ bytes : Bytes,
        m.after (.write addr write) = { m with space := { m.space with bytes } } ∧
        ∀ i, bytes[i]? ≠ m.space.bytes[i]? → m.isObject addr = true ∧
          m.space.activeStart ≤ i ∧ i < m.space.bytes.size ∧ (¬m.Overruns addr → i < m.space.top) := by
  refine ⟨?_, fun header => sourceHeader?_iff reached.heapSound, ?_⟩
  · rw [isObject_iff]
    exact exists_congr fun header => header_eq_ok_iff
  · intro write
    obtain ⟨bytes, eq, size, local_⟩ := after_write m addr write
    refine ⟨bytes, eq, fun i changed => ?_⟩
    obtain ⟨header, found, low, high⟩ := local_ i changed
    obtain ⟨-, start, -, fits⟩ := header_eq_ok_iff.1 found
    refine ⟨isObject_iff.2 ⟨header, found⟩, by omega, by omega, fun stays => ?_⟩
    have := ((sourceHeader?_iff reached.heapSound).2 ⟨found, stays⟩)
    have inside := (sourceHeader?_eq_some_iff.1 this).2.2
    omega

/-! ### A forged header -/

/-- A new memory. -/
def freshMemory : Memory where
  space := SemiSpaces.new 100
  stack := FrameStack.new 64
  code := { limit := 64 }
  pc := ⟨0⟩
  methods := #[]
  constants := {}
  classes := #[]
  dictionaries := #[]
  stats := {}
  journal := {}

/-- A new memory with an object of eleven bytes, in which a header is stored. -/
def memoryHolding (stored : Header) : Memory :=
  (freshMemory.after (.allocateObject .bytes 11 none)).after
    (.write ⟨4096⟩ (.payload 0 stored.encode))

theorem memoryHolding_reached (stored : Header) : (memoryHolding stored).Reached := by
  have made : Memory.new ⟨100, 64, 64⟩ none = .ok freshMemory := rfl
  exact ((Reached.new made).after _).after _

/-- The buffer of a new memory once the object has been laid out. -/
def laidOutBytes : Bytes := layOut freshMemory.space.bytes 4096 .bytes 11 Ref.null

theorem size_laidOutBytes : laidOutBytes.size = 4196 := size_layOut.trans Array.size_replicate

theorem read?_laidOutBytes :
    Header.read? laidOutBytes ⟨4096⟩ = some ⟨.bytes, 11, .normal Ref.null⟩ := by
  refine Header.read?_overwrite_encode (Bytes.wipe _ _ _) ⟨4096⟩ _ (by decide) ?_
  rw [Bytes.size_wipe]
  exact (by decide : 4107 ≤ 4196).trans_eq Array.size_replicate.symm

theorem free_laidOutBytes : laidOutBytes[4118]? = some 0 := by
  have size : freshMemory.space.bytes.size = 4196 := Array.size_replicate
  have wiped := Bytes.same_wipe freshMemory.space.bytes 4096 (ObjectKind.bytes.objectBytes 11) 4118 1
    (by rw [size]; decide) (by decide)
  have laid := Bytes.same_overwrite (freshMemory.space.bytes.wipe 4096 (ObjectKind.bytes.objectBytes 11))
    4096 (Header.encode ⟨.bytes, 11, .normal Ref.null⟩) 4118 1 (by rw [Bytes.size_wipe, size]; decide)
    (by decide)
  have same : laidOutBytes[4118]? = freshMemory.space.bytes[4118]? := laid.trans wiped 0 Nat.one_pos
  rw [same]
  exact Array.getElem?_replicate.trans (if_pos (by decide))

theorem memoryHolding_eq (stored : Header) : memoryHolding stored = { freshMemory with
    space := ⟨laidOutBytes.overwrite 4107 stored.encode, 50, .lower, 4118⟩ } := by
  have sound : freshMemory.space.Sound := Reached.heapSound (.new (rfl : new ⟨100, 64, 64⟩ none = _))
  have room : ObjectKind.bytes.objectBytes 11 ≤ freshMemory.space.free := by decide
  have laidOut : allocateObject .bytes 11 none freshMemory = .ok ⟨4096⟩
      { freshMemory with space := ⟨laidOutBytes, 50, .lower, 4118⟩ } :=
    allocateObject_laidOut rfl sound rfl room (allocate_of_room room)
  have allocated : freshMemory.after (.allocateObject .bytes 11 none) =
      { freshMemory with space := ⟨laidOutBytes, 50, .lower, 4118⟩ } :=
    congrArg endState (run_bind_ok laidOut)
  have found : Memory.header { freshMemory with space := ⟨laidOutBytes, 50, .lower, 4118⟩ } ⟨4096⟩ =
      .ok ⟨.bytes, 11, .normal Ref.null⟩ := by
    refine header_eq_ok_iff.2 ⟨read?_laidOutBytes, by decide, by decide, ?_⟩
    rw [size_laidOutBytes]
    decide
  have fits : 0 + stored.encode.length ≤ Header.payloadBytes ⟨.bytes, 11, .normal Ref.null⟩ := by
    rw [Header.length_encode]
    decide
  unfold memoryHolding
  rw [allocated]
  exact congrArg endState (run_bind_ok (setPayload_of_fits found fits))

theorem size_memoryHolding (stored : Header) : (memoryHolding stored).space.bytes.size = 4196 := by
  rw [memoryHolding_eq]
  exact (Bytes.size_overwrite _ _ _).trans size_laidOutBytes

theorem read?_stored (stored : Header) :
    Header.read? (laidOutBytes.overwrite 4107 stored.encode) ⟨4107⟩ = some stored := by
  refine Header.read?_overwrite_encode laidOutBytes ⟨4107⟩ _ (by decide) ?_
  rw [size_laidOutBytes]
  decide

/-- The stored header is found if its object ends in the buffer. -/
theorem header_memoryHolding {stored : Header} (fits : 4107 + stored.objectBytes ≤ 4196) :
    (memoryHolding stored).header ⟨4107⟩ = .ok stored := by
  have size := size_memoryHolding stored
  rw [memoryHolding_eq] at size ⊢
  have start : 4096 ≤ 4107 := by decide
  have stop : 4118 ≤ 4118 := Nat.le_refl _
  refine header_eq_ok_iff.2 ⟨read?_stored stored, start, stop, ?_⟩
  rw [size]
  exact fits

/-- The header of an object that is not there, of twenty bytes. -/
def forgedHeader : Header := ⟨.bytes, 20, .normal Ref.null⟩

/-- A memory with an object in which the forged header is stored. -/
def forgedMemory : Memory := memoryHolding forgedHeader

theorem header_forgedMemory : forgedMemory.header ⟨4107⟩ = .ok forgedHeader :=
  header_memoryHolding (by decide)

theorem forgedMemory_eq : forgedMemory = { freshMemory with
    space := ⟨laidOutBytes.overwrite 4107 forgedHeader.encode, 50, .lower, 4118⟩ } :=
  memoryHolding_eq forgedHeader

theorem forgedMemory_reached : forgedMemory.Reached := memoryHolding_reached forgedHeader

theorem size_forgedMemory : forgedMemory.space.bytes.size = 4196 := size_memoryHolding forgedHeader

theorem overruns_forgedMemory : forgedMemory.Overruns ⟨4107⟩ := by
  refine ⟨forgedHeader, header_forgedMemory, ?_⟩
  rw [forgedMemory_eq]
  decide

/-- The forged object is one for the memory only; the object around it is one for both. -/
theorem forgedMemory_agrees : forgedMemory.Reached ∧
    forgedMemory.sourceHeader? ⟨4107⟩ ≠ some forgedHeader ∧
    forgedMemory.sourceHeader? ⟨4096⟩ = some ⟨.bytes, 11, .normal Ref.null⟩ := by
  have found : forgedMemory.header ⟨4096⟩ = .ok ⟨.bytes, 11, .normal Ref.null⟩ := by
    have size := size_forgedMemory
    rw [forgedMemory_eq] at size ⊢
    refine header_eq_ok_iff.2 ⟨?_, by decide, by decide, ?_⟩
    · rw [← read?_laidOutBytes]
      refine Header.read?_congr (n := 11) (Bytes.same_overwrite _ _ _ _ _ ?_ (Or.inl ?_)) (Nat.le_refl _)
        (by decide) (by decide)
      · rw [size_laidOutBytes, Header.length_encode]
        decide
      · decide
    · rw [size]
      decide
  have stays : ¬forgedMemory.Overruns ⟨4096⟩ := by
    rintro ⟨header, found', past⟩
    cases found.symm.trans found'
    rw [forgedMemory_eq] at past
    exact absurd past (by decide)
  refine ⟨forgedMemory_reached, ?_, ?_⟩
  · intro source
    have := ((access_agrees_below_cursor forgedMemory_reached ⟨4107⟩).2.1 forgedHeader).1 source
    exact this.2 overruns_forgedMemory
  · exact ((access_agrees_below_cursor forgedMemory_reached ⟨4096⟩).2.1 _).2 ⟨found, stays⟩

/-- **A forged header reaches past the cursor.**  The memory takes it for an object, the collector
    does not, and a byte past the cursor changes when its payload is written. -/
theorem forged_header_passes_cursor :
    forgedMemory.isObject ⟨4107⟩ = true ∧ forgedMemory.sourceHeader? ⟨4107⟩ = none ∧
      forgedMemory.space.top ≤ 4118 ∧
      (forgedMemory.after (.write ⟨4107⟩ (.payload 0 [1]))).space.bytes[4118]? ≠
        forgedMemory.space.bytes[4118]? := by
  refine ⟨isObject_iff.2 ⟨_, header_forgedMemory⟩, ?_, ?_, ?_⟩
  · cases source : forgedMemory.sourceHeader? ⟨4107⟩ with
    | none => rfl
    | some header =>
      have := (sourceHeader?_iff forgedMemory_reached.heapSound).1 source
      exact absurd overruns_forgedMemory this.2
  · rw [forgedMemory_eq]
  · have size := size_forgedMemory
    have before : forgedMemory.space.bytes[4118]? = some 0 := by
      rw [forgedMemory_eq, ← free_laidOutBytes]
      refine Bytes.same_overwrite laidOutBytes 4107 forgedHeader.encode 4118 1 ?_ (by decide) 0
        Nat.one_pos
      rw [size_laidOutBytes]
      decide
    have place : payloadOffset ⟨4107⟩ 0 = 4118 := rfl
    rw [bytes_after_payload header_forgedMemory (by decide), place, before,
      Bytes.getElem?_overwrite _ _ _ _ (by rw [size]; decide), if_pos (by decide)]
    decide

end Memory

end ObjectMachine
