/-
  ObjectMachine/Proofs/CollectedMemory.lean
  =========================================
  **What a collection makes of a memory** — of any memory whose references are in order,
  however it came about.

  Words may be anything as long as they do not point into the heap buffer, and frames may be
  linked in any way.  A collection needs the words of the stack, so it ends exactly if they
  lie in the stack's buffer; then every reachable object has a copy, and what was read from
  the object before is read from the copy after.
-/
import ObjectMachine.Proofs.MemoryOperations

namespace ObjectMachine

open ObjectGraph

/-! ### Readable stacks -/

namespace FrameStack

/-- Every word that a collection visits lies in the buffer. -/
def Readable (s : FrameStack) : Prop :=
  ∃ chain, s.chain = .ok chain ∧ ∀ offset ∈ s.liveOffsets chain, offset + 4 ≤ s.bytes.size

section Visits

variable {visit : Word → Evacuation.Run Word} {s s' : FrameStack} {e e' : Evacuation}

theorem fits_of_visitAt {offset : Nat} (h : s.visitAt visit offset e = .ok (s', e')) :
    offset + 4 ≤ s.bytes.size ∧ s'.bytes.size = s.bytes.size := by
  unfold visitAt at h
  cases word : s.bytes.word? offset with
  | none =>
    rw [word] at h
    cases h
  | some w =>
    rw [word] at h
    refine ⟨(Bytes.word?_eq_some_iff_le _ _).1 ⟨w, word⟩, ?_⟩
    obtain ⟨after, e₁, -, h⟩ := Evacuation.bind_eq_ok h
    by_cases same : after = w
    · rw [if_pos same] at h
      cases h
      rfl
    · rw [if_neg same] at h
      cases h
      exact Bytes.size_overwrite _ _ _

theorem fits_of_foldlM {offsets : List Nat}
    (h : (offsets.foldlM (visitAt visit) s : Evacuation.Run FrameStack) e = .ok (s', e')) :
    ∀ offset ∈ offsets, offset + 4 ≤ s.bytes.size := by
  induction offsets generalizing s e with
  | nil => simp
  | cons offset offsets ih =>
    rw [List.foldlM_cons] at h
    obtain ⟨s₁, e₁, first, h⟩ := Evacuation.bind_eq_ok h
    obtain ⟨fits, size⟩ := fits_of_visitAt first
    have rest := ih h
    rw [size] at rest
    exact List.forall_mem_cons.2 ⟨fits, rest⟩

/-- Only a readable stack can be visited. -/
theorem readable_of_visitWords (h : s.visitWords visit e = .ok (s', e')) : s.Readable := by
  unfold visitWords at h
  cases found : s.chain with
  | error cause =>
    rw [found] at h
    cases h
  | ok chain =>
    rw [found] at h
    exact ⟨chain, found, fits_of_foldlM h⟩

end Visits

end FrameStack

/-! ### Well-formed memories -/

namespace Memory

/-- **Well-formed.**  Every reference is null, or points outside the heap buffer, or is the start
    of one of the objects; classes and dictionaries are where their tables say. -/
structure WellFormed (m : Memory) (objects : Set Ref) : Prop where
  sound : m.space.Sound
  graph : (m.graph objects).WellFormed addressGuard m.space.bytes.size

/-- **Copied.**  Every reachable object has a copy, and tables and stack lead to the copies. -/
structure CopiedTo (m m' : Memory) (objects : Set Ref) (φ : Ref → Ref) : Prop where
  sound : m'.space.Sound
  size : m'.space.bytes.size = m.space.bytes.size
  copy : (m.graph objects).CopyOf
    (m'.space.graph (m.rootSlots.map ((m.graph objects).follow φ))
      (φ '' {a | (m.graph objects).Reachable a})) φ
  classes : m'.classes = m.classes.map ((m.graph objects).follow φ)
  dictionaries : m'.dictionaries = m.dictionaries.map ((m.graph objects).follow φ)
  stack : ∃ chain, m.stack.chain = .ok chain ∧
    m'.stack = m.stack.replaceWords ((m.graph objects).follow φ) (m.stack.liveOffsets chain)
  methods : m'.methods = m.methods
  constants : m'.constants = m.constants

variable {m m' : Memory} {objects : Set Ref} {φ : Ref → Ref}

/-- **A collection ends** if the stack can be read: the copies of the reachable objects fill the
    new half from its start. -/
theorem WellFormed.collect_eq (wf : m.WellFormed objects) (readable : m.stack.Readable) :
    ∃ (m' : Memory) (φ : Ref → Ref) (live : List Ref), collect m = .ok () m' ∧
      m.CopiedTo m' objects φ ∧ live.Nodup ∧ (∀ a, a ∈ live ↔ (m.graph objects).Reachable a) ∧
      m'.space.top = m'.space.activeStart + (live.map (m.graph objects).extent).sum := by
  obtain ⟨chain, found, fits⟩ := readable
  have words : ∀ o ∈ m.stack.liveOffsets chain, ∃ w, m.stack.bytes.word? o = some w :=
    fun o ho => (Bytes.word?_eq_some_iff_le _ _).2 (fits o ho)
  obtain ⟨r, φ, live, run, sound, copy, collects⟩ := collected_copy wf.sound wf.graph found words
  exact ⟨_, φ, live, collect_of_collected run, ⟨sound, collects.size, copy, rfl, rfl,
    ⟨chain, found, rfl⟩, rfl, rfl⟩, collects.nodup, collects.reach, collects.top⟩

/-- What a collection makes of a word of the stack. -/
def forwardWord (w : Word) : Evacuation.Run Word := do
  return (← Evacuation.forwardRoot .stack ⟨w⟩).word

section Stages

variable {classes classes' dictionaries dictionaries' : Array Ref} {stack stack' : FrameStack}
  {e e' : Evacuation}

/-- The roots are visited table by table, and then the stack; a broken chain is reported. -/
theorem visitRoots_eq_ok (run : visitRoots classes dictionaries stack Evacuation.forwardRoot e =
      .ok ((classes', dictionaries', stack'), e')) :
    ∃ e₁ e₂ e₃, classes.mapM (Evacuation.forwardRoot .classTable) e = .ok (classes', e₁) ∧
      dictionaries.mapM (Evacuation.forwardRoot .dictionaryTable) e₁ = .ok (dictionaries', e₂) ∧
      (e₃ = e₂ ∨ ∃ event, Evacuation.note event e₂ = .ok ((), e₃)) ∧
      stack.visitWords forwardWord e₃ = .ok (stack', e') := by
  obtain ⟨values₁, e₁, first, run⟩ := Evacuation.bind_eq_ok run
  obtain ⟨values₂, e₂, second, run⟩ := Evacuation.bind_eq_ok run
  rcases found : stack.chain with cause | ⟨bases, _ | base⟩
  all_goals rw [found] at run
  case ok.some =>
    obtain ⟨⟨⟩, e₃, noted, run⟩ := Evacuation.bind_eq_ok run
    obtain ⟨words, e₄, visited, last⟩ := Evacuation.bind_eq_ok run
    cases last
    exact ⟨e₁, e₂, e₃, first, second, Or.inr ⟨_, noted⟩, visited⟩
  all_goals
    obtain ⟨words, e₃, visited, last⟩ := Evacuation.bind_eq_ok run
    cases last
    exact ⟨e₁, e₂, e₂, first, second, Or.inl rfl, visited⟩

/-- **A collection that ends** has visited the roots, scanned, and exchanged the halves. -/
theorem collected_eq_ok (run : m.collected = .ok m') : ∃ classes dictionaries stack e₁ e₂,
    visitRoots m.classes m.dictionaries m.stack Evacuation.forwardRoot
      (Evacuation.ofSpaces m.space m.journal) = .ok ((classes, dictionaries, stack), e₁) ∧
    Evacuation.scan e₁.toEnd m.space.inactiveStart e₁ = .ok ((), e₂) ∧
    m' = { m with
      space := { m.space with bytes := e₂.bytes }.flipped e₂.free
      stats := (Evacuation.finish m.space m.stats e₂ ()).stats
      journal := (Evacuation.finish m.space m.stats e₂ ()).journal
      classes, dictionaries, stack } := by
  obtain ⟨r, collected, finished⟩ := exists_of_bind_eq_ok run
  obtain ⟨⟨⟨classes, dictionaries, stack⟩, e₁⟩, visited, rest⟩ := exists_of_bind_eq_ok collected
  obtain ⟨⟨⟨⟩, e₂⟩, scanned, rest⟩ := exists_of_bind_eq_ok rest
  obtain ⟨flipped, exchanged, rest⟩ := exists_of_bind_eq_ok rest
  unfold SemiSpaces.flip at exchanged
  split at exchanged <;> cases exchanged
  cases rest
  cases finished
  exact ⟨classes, dictionaries, stack, e₁, e₂, visited, scanned, rfl⟩

theorem collected_of_collect (run : collect m = .ok () m') : m.collected = .ok m' := by
  unfold collect at run
  split at run <;> cases run
  assumption

/-- The stack after a collection is what visiting its words has made of it. -/
theorem visitWords_of_collected (run : m.collected = .ok m') :
    ∃ e e', m.stack.visitWords forwardWord e = .ok (m'.stack, e') := by
  obtain ⟨classes, dictionaries, stack, e₁, e₂, visited, -, rfl⟩ := collected_eq_ok run
  obtain ⟨-, -, e₃, -, -, -, words⟩ := visitRoots_eq_ok visited
  exact ⟨e₃, e₁, words⟩

end Stages

theorem readable_of_collect (run : collect m = .ok () m') : m.stack.Readable := by
  obtain ⟨e, e', visited⟩ := visitWords_of_collected (collected_of_collect run)
  exact FrameStack.readable_of_visitWords visited

/-- **Whatever a collection of a well-formed memory leaves is a copy.** -/
theorem WellFormed.copiedTo (wf : m.WellFormed objects) (h : collect m = .ok () m') :
    ∃ φ, m.CopiedTo m' objects φ := by
  obtain ⟨m₁, φ, live, run, copied, -⟩ := wf.collect_eq (readable_of_collect h)
  rw [h] at run
  cases run
  exact ⟨φ, copied⟩

theorem CopiedTo.classRef_eq (copied : m.CopiedTo m' objects φ) (id : ClassId) :
    m'.classRef id = (m.classRef id).map ((m.graph objects).follow φ) := by
  unfold classRef
  rw [copied.classes, Array.getElem?_map]
  cases m.classes[id.index.toNat]? with
  | none => rfl
  | some a => rfl

/-! ### Reading objects and their copies -/

theorem WellFormed.follow_null (wf : m.WellFormed objects) :
    (m.graph objects).follow φ Ref.null = Ref.null :=
  follow_of_not_mem wf.graph.null_not_object

theorem WellFormed.view (wf : m.WellFormed objects) {a : Ref} (ha : a ∈ objects) :
    ∃ kind size c, (m.graph objects).header? a = some ⟨kind, size, .normal c⟩ ∧
      m.view a = .ok ⟨m.space.bytes, a, ⟨kind, size, .normal c⟩⟩ := by
  obtain ⟨kind, size, c, found⟩ := wf.graph.header ha
  refine ⟨kind, size, c, found, ?_⟩
  have long := wf.graph.header_le_extent ha
  have high : a.offset ((m.graph objects).extent a) ≤ m.space.top := wf.graph.high a ha
  have fits : a.offset ((m.graph objects).extent a) ≤ m.space.bytes.size :=
    high.trans (wf.sound.top_le_end.trans wf.sound.end_le_size)
  rw [extent_eq found] at long high fits
  exact view_of_read found (wf.graph.low a ha) ((Nat.add_le_add_left long _).trans high) fits

theorem CopiedTo.view (copied : m.CopiedTo m' objects φ) (wf : m.WellFormed objects) {a : Ref}
    (reach : (m.graph objects).Reachable a) {kind : ObjectKind} {size : Word} {c : Ref}
    (found : (m.graph objects).header? a = some ⟨kind, size, .normal c⟩) :
    m'.view (φ a) = .ok ⟨m'.space.bytes, φ a,
      ⟨kind, size, .normal ((m.graph objects).follow φ c)⟩⟩ := by
  have long := wf.graph.header_le_extent reach.object
  obtain ⟨low, high⟩ := copied.copy.inside a reach
  have high : (φ a).offset ((m.graph objects).extent a) ≤ m'.space.top := high
  have fits : (φ a).offset ((m.graph objects).extent a) ≤ m'.space.bytes.size :=
    high.trans (copied.sound.top_le_end.trans copied.sound.end_le_size)
  rw [extent_eq found] at long high fits
  exact view_of_read (copied.copy.header a reach kind size c found) low
    ((Nat.add_le_add_left long _).trans high) fits

/-- Where there is no object, the answer is the same error. -/
theorem CopiedTo.view_stray (copied : m.CopiedTo m' objects φ) (wf : m.WellFormed objects) {a : Ref}
    (stray : Stray addressGuard m.space.bytes.size a) : m'.view a = m.view a := by
  rw [Memory.view_stray wf.sound stray]
  rw [← copied.size] at stray
  exact Memory.view_stray copied.sound stray

end Memory

/-! ### A small memory -/

/-- The small heap in a memory: the class has a name, and the instance is on the stack. -/
def smallMemory : Memory where
  space := smallHeap
  stack := ⟨((4127 : Word).bytes ++ (7 : Word).bytes).toArray, 8, noFrame⟩
  code := { limit := 0 }
  pc := ⟨0⟩
  methods := #[]
  constants := ⟨#[.text "Point"]⟩
  classes := #[⟨4096⟩]
  dictionaries := #[]
  stats := {}
  journal := {}

theorem rootSlots_smallMemory : smallMemory.rootSlots = smallRoots := by
  have live : smallMemory.stack.liveWords = [⟨4127⟩, ⟨7⟩] := by decide
  unfold Memory.rootSlots
  rw [live]
  rfl

theorem smallMemory_wellFormed : smallMemory.WellFormed {⟨4096⟩, ⟨4127⟩} where
  sound := smallHeap_sound
  graph := by
    unfold Memory.graph
    rw [rootSlots_smallMemory]
    exact smallHeap_wellFormed

end ObjectMachine
