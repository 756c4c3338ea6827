/-
  ObjectMachine/Proofs/MemoryCollection.lean
  ==========================================
  **Collecting a memory** — the ideal memory stays, the placement changes.

  The roots of a memory are its two tables and the live words of its stack; visiting them
  comes down to visiting three lists.  A memory that shows a valid ideal memory has a well
  formed graph, so its collection makes a copy, and the addresses of the copies are the new
  placement.
-/
import ObjectMachine.Proofs.StackFrames

namespace ObjectMachine

/-! ### Roots -/

/-- The root slots of a memory. -/
def Memory.rootSlots (m : Memory) : RootSlots :=
  ⟨m.classes.toList, m.dictionaries.toList, m.stack.liveWords⟩

/-- The object graph of a memory. -/
def Memory.graph (m : Memory) (objects : Set Ref) : ObjectGraph := m.space.graph m.rootSlots objects

namespace Evacuation

theorem bind_eq_ok {α β : Type} {x : Run α} {f : α → Run β} {e e' : Evacuation} {r : β}
    (h : (x >>= f) e = .ok (r, e')) : ∃ a e₁, x e = .ok (a, e₁) ∧ f a e₁ = .ok (r, e') := by
  change (x e).bind (fun p => f p.1 p.2) = .ok (r, e') at h
  cases run : x e with
  | error cause =>
    rw [run] at h
    cases h
  | ok p =>
    rw [run] at h
    exact ⟨p.1, p.2, rfl, h⟩

/-- Visiting the words at some offsets of a stack is visiting a list of words. -/
theorem foldlM_visitAt (f : Ref → Ref) (offsets : List Nat) :
    ∀ (s : FrameStack) (ws : List Ref) {e e' : Evacuation}, offsets.Nodup →
      (∀ o ∈ offsets, o % 4 = 0) →
      offsets.map (fun o => (s.bytes.word? o).map Ref.mk) = ws.map some →
      ws.mapM (forwardRoot .stack) e = .ok (ws.map f, e') →
      (offsets.foldlM (FrameStack.visitAt fun w => (do return (← forwardRoot .stack ⟨w⟩).word)) s :
        Run FrameStack) e = .ok (s.replaceWords f offsets, e') := by
  induction offsets with
  | nil =>
    intro s ws e e' _ _ words run
    rw [List.map_nil, eq_comm, List.map_eq_nil_iff] at words
    subst words
    cases run
    rfl
  | cons offset rest ih =>
    intro s ws e e' nodup aligned words run
    cases ws with
    | nil => cases words
    | cons w ws =>
      rw [List.map_cons, List.map_cons] at words
      obtain ⟨word, others_words⟩ := List.cons.inj words
      obtain ⟨x, found, rfl⟩ := Option.map_eq_some_iff.1 word
      rw [List.mapM_cons] at run
      obtain ⟨first, e₁, run₁, run⟩ := bind_eq_ok run
      obtain ⟨others, e₂, run₂, run⟩ := bind_eq_ok run
      obtain ⟨heads, rfl⟩ := Prod.mk.inj (Except.ok.inj run)
      rw [List.map_cons] at heads
      obtain ⟨rfl, rfl⟩ := List.cons.inj heads
      obtain ⟨new, nodup⟩ := List.nodup_cons.1 nodup
      have aligned' : ∀ o ∈ rest, o % 4 = 0 := fun o ho => aligned o (List.mem_cons_of_mem _ ho)
      have visit : FrameStack.visitAt
          (fun w => (do return (← forwardRoot .stack ⟨w⟩).word : Run Word)) s offset e =
          .ok (s.replaceWord f offset, e₁) := by
        unfold FrameStack.visitAt FrameStack.replaceWord
        rw [found]
        dsimp only
        rw [bind_assoc, bind_of_ok run₁, pure_bind]
        split <;> rfl
      rw [List.foldlM_cons, bind_of_ok visit]
      refine ih _ ws nodup aligned' ?_ run₂
      rw [← others_words]
      refine List.map_congr_left ?_
      intro o ho
      have first_aligned := aligned offset List.mem_cons_self
      have := aligned' o ho
      have : o ≠ offset := fun h => new (h ▸ ho)
      rw [FrameStack.word?_replaceWord_of_apart (by omega)]

theorem mapM_array {kind : RootKind} {f : Ref → Ref} {table : Array Ref} {e e' : Evacuation}
    (run : table.toList.mapM (forwardRoot kind) e = .ok (table.toList.map f, e')) :
    table.mapM (forwardRoot kind) e = .ok (table.map f, e') := by
  rw [Array.mapM_eq_mapM_toList, map_eq_pure_bind, bind_of_ok run]
  rw [← Array.toList_map]
  rfl

/-- The words at some offsets that lie in the buffer, as a list. -/
theorem map_word_eq {s : FrameStack} {offsets : List Nat}
    (words : ∀ o ∈ offsets, ∃ w, s.bytes.word? o = some w) :
    offsets.map (fun o => (s.bytes.word? o).map Ref.mk) =
      (offsets.filterMap fun o => (s.bytes.word? o).map Ref.mk).map some := by
  induction offsets with
  | nil => rfl
  | cons o rest ih =>
    obtain ⟨w, word⟩ := words o List.mem_cons_self
    rw [List.map_cons, ih fun o ho => words o (List.mem_cons_of_mem _ ho),
      List.filterMap_cons_some (by rw [word]; rfl), word]
    rfl

/-- **Visiting the roots of a memory** is visiting its root slots; on the way a broken chain of
    frames is reported. -/
theorem visits_memory {m : Memory} {objects : Set Ref} {lo hi base stop : Nat} {journal : Journal}
    {chain : FrameStack.Chain} (wf : (m.graph objects).WellFormed lo hi)
    (halves : (m.graph objects).Halves base stop) (found : m.stack.chain = .ok chain)
    (words : ∀ o ∈ m.stack.liveOffsets chain, ∃ w, m.stack.bytes.word? o = some w) :
    Visits (m.graph objects) base stop journal
      (Memory.visitRoots m.classes m.dictionaries m.stack forwardRoot)
      fun f => (m.classes.map f, m.dictionaries.map f,
        m.stack.replaceWords f (m.stack.liveOffsets chain)) := by
  intro e inv
  obtain ⟨e₁, e₂, moved₂, more₂, inv₂, tables₂, run₁, run₂⟩ := visit_tables_spec wf halves inv
  obtain ⟨e₃, inv₃, whole, broken⟩ : ∃ e₃,
      Invariant (m.graph objects) base stop journal e₃ moved₂ ∅ ∧
      (chain.brokenAt = none → e₃ = e₂) ∧
      ∀ base, chain.brokenAt = some base → note (.chainBroken base) e₂ = .ok ((), e₃) := by
    cases chain.brokenAt with
    | none =>
      refine ⟨e₂, inv₂, fun _ => rfl, ?_⟩
      intro base eq
      cases eq
    | some base =>
      refine ⟨_, inv₂.note (.chainBroken base) ?_, ?_, ?_⟩
      · intro a eq
        cases eq
      · intro eq
        cases eq
      · intro base' eq
        cases eq
        rfl
  obtain ⟨e₄, moved₄, more₄, inv₄, tables₄, targets, run₄⟩ := visit_stack_spec wf halves inv₃ tables₂
  refine ⟨e₄, moved₄, inv₄, tables₄, targets, ?_⟩
  intro f agrees
  have all : ∀ slots : List Ref, (∀ a ∈ slots, a ∈ (m.graph objects).roots.all) →
      slots.map ((m.graph objects).relocate base moved₄) = slots.map f := by
    intro slots mem
    exact List.map_congr_left fun a ha => (agrees a (mem a ha)).symm
  rw [map_relocate_table tables₂ more₄ fun a => Or.inl, all _ fun a ha =>
    List.mem_append_left _ (List.mem_append_left _ ha)] at run₁
  rw [map_relocate_table tables₂ more₄ fun a => Or.inr, all _ fun a ha =>
    List.mem_append_left _ (List.mem_append_right _ ha)] at run₂
  rw [all _ fun a ha => List.mem_append_right _ ha] at run₄
  have live : m.stack.liveWords = (m.stack.liveOffsets chain).filterMap
      fun o => (m.stack.bytes.word? o).map Ref.mk := by
    unfold FrameStack.liveWords
    rw [found]
  have visited := foldlM_visitAt f _ m.stack m.stack.liveWords (FrameStack.nodup_liveOffsets chain)
    (fun o ho => (FrameStack.mem_liveOffsets_lt ho).1) (live ▸ map_word_eq words) run₄
  have rest : (m.stack.visitWords fun w => (do return (← forwardRoot .stack ⟨w⟩).word) :
      Run FrameStack) e₃ =
      .ok (m.stack.replaceWords f (m.stack.liveOffsets chain), e₄) := by
    unfold FrameStack.visitWords
    rw [found]
    exact visited
  unfold Memory.visitRoots
  rw [bind_of_ok (mapM_array run₁), bind_of_ok (mapM_array run₂), found]
  rcases chain with ⟨bases, _ | base⟩
  · obtain rfl := whole rfl
    dsimp only
    rw [bind_of_ok rest]
    rfl
  · dsimp only
    rw [bind_of_ok (broken base rfl), bind_of_ok rest]
    rfl

end Evacuation

/-- **A collection of a memory**, in terms of its graph: the heap is a copy, and the tables and
    the live words of the stack lead to the copies. -/
theorem Memory.collected_copy {m : Memory} {objects : Set Ref} {lo hi : Nat}
    {chain : FrameStack.Chain} (sound : m.space.Sound) (wf : (m.graph objects).WellFormed lo hi)
    (found : m.stack.chain = .ok chain)
    (words : ∀ o ∈ m.stack.liveOffsets chain, ∃ w, m.stack.bytes.word? o = some w) :
    ∃ (r : Collected (Array Ref × Array Ref × FrameStack)) (φ : Ref → Ref) (moved : List Ref),
      m.collected = .ok { m with
        space := r.space
        stats := r.stats
        journal := r.journal
        classes := m.classes.map ((m.graph objects).follow φ)
        dictionaries := m.dictionaries.map ((m.graph objects).follow φ)
        stack := m.stack.replaceWords ((m.graph objects).follow φ) (m.stack.liveOffsets chain) } ∧
      r.space.Sound ∧
      (m.graph objects).CopyOf (r.space.graph (m.rootSlots.map ((m.graph objects).follow φ))
        (φ '' {a | (m.graph objects).Reachable a})) φ ∧
      Evacuation.Collects m.space (m.graph objects) m.journal φ moved r := by
  obtain ⟨r, φ, moved, run, roots, sound', copy, collects⟩ := Evacuation.collect_copy sound m.stats
    m.journal wf (Evacuation.visits_memory wf (sound.halves m.rootSlots objects) found words)
  refine ⟨r, φ, moved, ?_, sound', copy, collects⟩
  obtain ⟨space, stats, journal, slots⟩ := r
  subst roots
  unfold Memory.collected
  rw [run]
  rfl

/-! ### The graph of a memory -/

/-- The addresses of a placement. -/
def Placement.objects (η : Placement) : Set Ref := {r | ∃ id, η id = some r}

open IdealMemory ObjectGraph

/-- What a slot may hold, by the shape of what it leads to. -/
def IdealMemory.Slot (harmless : Word → Prop) (A : IdealMemory) : Shape → Value → Prop
  | .classObject => Entry A.classes
  | .dictionary => Entry A.dictionaries
  | .ordinary => A.Plain harmless

namespace Memory.Shows

variable {m : Memory} {A : IdealMemory} {η : Placement} {harmless : Word → Prop}
variable (shows_ : m.Shows A η)

include shows_ in
theorem header {id : Nat} {r : Ref} (placed : η id = some r) :
    ∃ size c, Header.read? m.space.bytes r = some ⟨(A.store id).content.kind, size, .normal c⟩ ∧
      size.toNat = (A.store id).content.length ∧ η.word? (A.store id).cls = some c.word :=
  (shows_.heap.object id r placed).header

include shows_ in
theorem extent_eq {id : Nat} {r : Ref} (placed : η id = some r) (objects : Set Ref) :
    (m.graph objects).extent r = (A.store id).content.extent := by
  obtain ⟨size, c, read, length, -⟩ := shows_.header placed
  rw [ObjectGraph.extent_eq (show (m.graph objects).header? r = _ from read)]
  exact Content.objectBytes_eq _ length

include shows_ in
theorem injective {id id' : Nat} {r : Ref} (placed : η id = some r) (placed' : η id' = some r) :
    id = id' := by
  by_contra ne
  have long := (A.store id).content.header_le_extent
  have long' := (A.store id').content.header_le_extent
  have at_ : ∀ n, r.offset n = r.offset 0 + n := fun _ => rfl
  have := shows_.heap.apart id id' r r placed placed' ne
  have := at_ (A.store id).content.extent
  have := at_ (A.store id').content.extent
  omega

theorem placed_of_mem {table : List Nat} {entries : List Ref}
    (eq : table.map η = entries.map some) {id : Nat} (mem : id ∈ table) :
    ∃ r ∈ entries, η id = some r := by
  have : η id ∈ entries.map some := eq ▸ List.mem_map_of_mem mem
  obtain ⟨r, hr, found⟩ := List.mem_map.1 this
  exact ⟨r, hr, found.symm⟩

theorem named_of_mem {table : List Nat} {entries : List Ref}
    (eq : table.map η = entries.map some) {r : Ref} (mem : r ∈ entries) :
    ∃ id ∈ table, η id = some r := by
  have : some r ∈ table.map η := eq ▸ List.mem_map_of_mem mem
  exact List.mem_map.1 this

include shows_ in
theorem mem_classes_iff {id : Nat} {r : Ref} (placed : η id = some r) :
    r ∈ m.classes.toList ↔ id ∈ A.classes := by
  constructor
  · intro mem
    obtain ⟨id', mem, placed'⟩ := named_of_mem shows_.classes mem
    exact shows_.injective placed placed' ▸ mem
  · intro mem
    obtain ⟨r', mem, placed'⟩ := placed_of_mem shows_.classes mem
    rw [placed] at placed'
    exact Option.some.inj placed' ▸ mem

include shows_ in
theorem mem_dictionaries_iff {id : Nat} {r : Ref} (placed : η id = some r) :
    r ∈ m.dictionaries.toList ↔ id ∈ A.dictionaries := by
  constructor
  · intro mem
    obtain ⟨id', mem, placed'⟩ := named_of_mem shows_.dictionaries mem
    exact shows_.injective placed placed' ▸ mem
  · intro mem
    obtain ⟨r', mem, placed'⟩ := placed_of_mem shows_.dictionaries mem
    rw [placed] at placed'
    exact Option.some.inj placed' ▸ mem

include shows_ in
theorem null_not_object : Ref.null ∉ η.objects := by
  rintro ⟨id, placed⟩
  obtain ⟨size, c, read, -⟩ := shows_.header placed
  exact ((Header.read?_eq_some_iff _ _ _).1 read).1 rfl

include shows_ in
theorem not_stray {id : Nat} {r : Ref} (placed : η id = some r) :
    ¬Stray addressGuard m.space.bytes.size r := by
  have low := shows_.heap.low id r placed
  have high := shows_.heap.high id r placed
  have long := (A.store id).content.header_le_extent
  have stop : r.offset (A.store id).content.extent = r.offset 0 + (A.store id).content.extent := rfl
  have := shows_.heap.sound.guard_le
  have := shows_.heap.sound.top_le_end
  have := shows_.heap.sound.end_le_size
  unfold Stray
  omega

include shows_ in
theorem chain (valid : A.Valid harmless) : m.stack.chain = .ok ⟨A.bases, none⟩ :=
  FrameStack.chain_eq shows_.stack valid.framed

include shows_ in
theorem mem_liveWords (valid : A.Valid harmless) (a : Ref) :
    a ∈ m.stack.liveWords ↔ ∃ (k : Nat) (v : Value), A.cells[k]? = some v ∧ ¬Control A.bases k ∧
      η.word? v = some a.word :=
  FrameStack.mem_liveWords shows_.stack valid.framed a

/-! ### Slots -/

section Slots

variable (valid : A.Valid harmless) {id : Nat} {r : Ref} (placed : η id = some r)

include shows_ placed in
theorem slots_eq (objects : Set Ref) : ∃ size c,
    (m.graph objects).header? r = some ⟨(A.store id).content.kind, size, .normal c⟩ ∧
    size.toNat = (A.store id).content.length ∧ η.word? (A.store id).cls = some c.word ∧
    (m.graph objects).slots r = Shape.slots (if id ∈ A.classes then .classObject
      else if id ∈ A.dictionaries then .dictionary else .ordinary)
        ⟨(A.store id).content.kind, size, .normal c⟩ := by
  obtain ⟨size, c, read, length, cls⟩ := shows_.header placed
  refine ⟨size, c, read, length, cls, ?_⟩
  rw [ObjectGraph.slots_eq (show (m.graph objects).header? r = _ from read)]
  have shape : (m.graph objects).roots.shapeOf r = (if id ∈ A.classes then .classObject
      else if id ∈ A.dictionaries then .dictionary else .ordinary) := by
    unfold RootSlots.shapeOf
    simp only [Memory.graph, SemiSpaces.graph, Memory.rootSlots, shows_.mem_classes_iff placed,
      shows_.mem_dictionaries_iff placed]
  rw [shape]

include shows_ placed valid in
/-- Every slot holds a value that may stand there. -/
theorem slot_value (objects : Set Ref) {slot : Nat × Shape}
    (hs : slot ∈ (m.graph objects).slots r) :
    ∃ v w, η.word? v = some w ∧ m.space.bytes.word? (r.offset slot.1) = some w ∧
      A.Slot harmless slot.2 v := by
  obtain ⟨size, c, read, length, cls, slots⟩ := shows_.slots_eq placed objects
  have fields := (shows_.heap.object id r placed).fields
  have named := shows_.heap.named id r placed
  rw [slots] at hs
  unfold Shape.slots at hs
  rw [List.mem_cons] at hs
  rcases hs with rfl | hs
  · exact ⟨_, _, cls, ((Header.read?_eq_some_iff _ _ _).1 read).2.2.2.2.2, valid.cls id named⟩
  · split at hs
    · rename_i pointers
      by_cases table : id ∈ A.classes
      · rw [if_pos table] at hs
        obtain ⟨name, superclass, metaclass, count, methods, content, hsuper, hmeta, hmethods⟩ :=
          valid.class_layout id table
        rw [content] at fields
        simp only [List.mem_cons, List.not_mem_nil, or_false] at hs
        rcases hs with rfl | rfl | rfl
        · obtain ⟨w, eq, word⟩ := fields 1 superclass rfl
          exact ⟨_, _, eq, word, hsuper⟩
        · obtain ⟨w, eq, word⟩ := fields 2 metaclass rfl
          exact ⟨_, _, eq, word, hmeta⟩
        · obtain ⟨w, eq, word⟩ := fields 4 methods rfl
          exact ⟨_, _, eq, word, hmethods⟩
      · rw [if_neg table] at hs
        by_cases table' : id ∈ A.dictionaries
        · rw [if_pos table'] at hs
          cases hs
        · rw [if_neg table'] at hs
          obtain ⟨i, hi, rfl⟩ := List.mem_map.1 hs
          cases content : (A.store id).content with
          | bytes xs =>
            rw [content] at pointers
            cases pointers
          | fields values =>
            have plain := valid.fields id named table table'
            rw [content] at fields length plain
            have hi : i < values.length := by
              have := List.mem_range.1 hi
              rw [length] at this
              exact this
            obtain ⟨w, eq, word⟩ := fields i values[i] (List.getElem?_eq_getElem hi)
            exact ⟨_, _, eq, word, plain _ (List.getElem_mem hi)⟩
    · cases hs

include shows_ placed valid in
/-- A field is a slot and holds what may stand there, or it is none and holds a raw word. -/
theorem field_slot_or_raw (objects : Set Ref) {i : Nat} {v : Value}
    (field : (A.store id).content.values[i]? = some v) :
    (∃ shape, (11 + i * 4, shape) ∈ (m.graph objects).slots r ∧ A.Slot harmless shape v) ∨
      ((∀ slot ∈ (m.graph objects).slots r, slot.1 ≠ 11 + i * 4) ∧ ∃ w, v = .raw w) := by
  obtain ⟨size, c, read, length, cls, slots⟩ := shows_.slots_eq placed objects
  cases content : (A.store id).content with
  | bytes xs =>
    rw [content] at field
    cases field
  | fields values =>
    have kind : (A.store id).content.kind = .pointers := by
      rw [content]
      rfl
    rw [content] at field length
    have hi : i < values.length := (List.getElem?_eq_some_iff.1 field).1
    rw [slots, kind]
    unfold Shape.slots
    rw [if_pos rfl]
    by_cases table : id ∈ A.classes
    · rw [if_pos table]
      obtain ⟨name, superclass, metaclass, count, methods, eq, hsuper, hmeta, hmethods⟩ :=
        valid.class_layout id table
      rw [content] at eq
      cases eq
      simp only [List.mem_cons, List.not_mem_nil, or_false, ClassField.superclass,
        ClassField.metaclass, ClassField.methods, Header.classOffset]
      rcases i with _ | _ | _ | _ | _ | i
      · refine Or.inr ⟨?_, name, (Option.some.inj field).symm⟩
        rintro slot (rfl | rfl | rfl | rfl) <;> decide
      · cases field
        exact Or.inl ⟨.classObject, by simp, hsuper⟩
      · cases field
        exact Or.inl ⟨.classObject, by simp, hmeta⟩
      · refine Or.inr ⟨?_, count, (Option.some.inj field).symm⟩
        rintro slot (rfl | rfl | rfl | rfl) <;> decide
      · cases field
        exact Or.inl ⟨.dictionary, by simp, hmethods⟩
      · cases field
    · rw [if_neg table]
      by_cases table' : id ∈ A.dictionaries
      · rw [if_pos table']
        obtain ⟨words, eq, -⟩ := valid.dictionary_layout id table'
        rw [content] at eq
        cases eq
        refine Or.inr ⟨?_, ?_⟩
        · intro slot hs
          rw [List.mem_singleton] at hs
          subst hs
          simp only [Header.classOffset]
          omega
        · rw [Content.values, List.getElem?_map] at field
          obtain ⟨w, -, rfl⟩ := Option.map_eq_some_iff.1 field
          exact ⟨w, rfl⟩
      · rw [if_neg table']
        refine Or.inl ⟨.ordinary, List.mem_cons_of_mem _ (List.mem_map.2 ⟨i, ?_, rfl⟩), ?_⟩
        · rw [List.mem_range]
          exact length.symm ▸ hi
        · refine valid.fields id (shows_.heap.named id r placed) table table' v ?_
          rw [content]
          exact List.mem_of_getElem? field

end Slots

/-! ### Well-formedness -/

section WellFormed

variable (valid : A.Valid harmless)
  (stray : ∀ w, harmless w → Stray addressGuard m.space.bytes.size ⟨w⟩)

include shows_ stray in
/-- A value that may stand in a slot is a word that may. -/
theorem allowed {shape : Shape} {v : Value} {w : Word} (slot : A.Slot harmless shape v)
    (word : η.word? v = some w) :
    (m.graph η.objects).Allowed addressGuard m.space.bytes.size shape ⟨w⟩ := by
  cases shape with
  | classObject =>
    rcases slot with rfl | ⟨id, mem, rfl⟩
    · cases word
      exact Or.inl rfl
    · have placed := Placement.word?_object_eq_some word
      exact Or.inr ((shows_.mem_classes_iff placed).2 mem)
  | dictionary =>
    rcases slot with rfl | ⟨id, mem, rfl⟩
    · cases word
      exact Or.inl rfl
    · have placed := Placement.word?_object_eq_some word
      exact Or.inr ((shows_.mem_dictionaries_iff placed).2 mem)
  | ordinary =>
    cases v with
    | raw x =>
      cases word
      exact Or.inr (stray _ slot)
    | object id => exact Or.inl ⟨id, Placement.word?_object_eq_some word⟩

include shows_ valid stray in
/-- **The graph of a memory is well formed**, for the bounds of the whole buffer. -/
theorem wellFormed : (m.graph η.objects).WellFormed addressGuard m.space.bytes.size := by
  have top_le := shows_.heap.sound.top_le_end.trans shows_.heap.sound.end_le_size
  refine
    { lo_le := shows_.heap.sound.guard_le
      le_hi := top_le
      normal := ?normal
      low := ?low
      high := ?high
      apart := ?apart
      root := ?root
      slot := ?slot
      class_layout := ?class_layout
      tables_apart := ?tables_apart }
  case normal =>
    rintro r ⟨id, placed⟩
    obtain ⟨size, c, read, -⟩ := shows_.header placed
    exact ⟨_, c, read, rfl⟩
  case low =>
    rintro r ⟨id, placed⟩
    exact shows_.heap.low id r placed
  case high =>
    rintro r ⟨id, placed⟩
    rw [shows_.extent_eq placed]
    exact shows_.heap.high id r placed
  case apart =>
    rintro r ⟨id, placed⟩ r' ⟨id', placed'⟩ ne
    rw [shows_.extent_eq placed, shows_.extent_eq placed']
    refine shows_.heap.apart id id' r r' placed placed' ?_
    rintro rfl
    rw [placed] at placed'
    exact ne (Option.some.inj placed')
  case root =>
    intro a mem
    change a ∈ m.classes.toList ++ m.dictionaries.toList ++ m.stack.liveWords at mem
    rw [List.mem_append, List.mem_append] at mem
    rcases mem with (mem | mem) | mem
    · obtain ⟨id, -, placed⟩ := named_of_mem shows_.classes mem
      exact Or.inl ⟨id, placed⟩
    · obtain ⟨id, -, placed⟩ := named_of_mem shows_.dictionaries mem
      exact Or.inl ⟨id, placed⟩
    · obtain ⟨k, v, cell, live, word⟩ := (shows_.mem_liveWords valid a).1 mem
      have plain : A.Slot harmless .ordinary v := valid.live k v cell live
      exact shows_.allowed stray plain word
  case slot =>
    rintro r ⟨id, placed⟩ slot hs w word
    obtain ⟨v, w', value, found, typed⟩ := shows_.slot_value valid placed _ hs
    have : w' = w := Option.some.inj (found.symm.trans word)
    subst this
    exact shows_.allowed stray typed value
  case class_layout =>
    rintro r ⟨id, placed⟩ table
    obtain ⟨size, c, read, length, -⟩ := shows_.header placed
    obtain ⟨name, superclass, metaclass, count, methods, content, -⟩ :=
      valid.class_layout id ((shows_.mem_classes_iff placed).1 table)
    rw [content] at read length
    exact ⟨_, read, rfl, Nat.le_of_eq length.symm⟩
  case tables_apart =>
    rintro r ⟨id, placed⟩ table table'
    exact valid.tables_apart id ((shows_.mem_classes_iff placed).1 table)
      ((shows_.mem_dictionaries_iff placed).1 table')

end WellFormed

end Memory.Shows

/-! ### Collecting -/

open Classical in
/-- The placement after some objects have been moved and the others reclaimed. -/
noncomputable def Placement.moved (η : Placement) (kept : Ref → Prop) (φ : Ref → Ref) : Placement :=
  fun id => (η id).bind fun r => if kept r then some (φ r) else none

namespace Placement

variable {η : Placement} {kept : Ref → Prop} {φ : Ref → Ref}

theorem moved_eq_some {id : Nat} {r' : Ref} (h : η.moved kept φ id = some r') :
    ∃ r, η id = some r ∧ kept r ∧ φ r = r' := by
  obtain ⟨r, placed, h⟩ := Option.bind_eq_some_iff.1 h
  split at h
  · rename_i keep
    exact ⟨r, placed, keep, Option.some.inj h⟩
  · cases h

theorem moved_of_kept {id : Nat} {r : Ref} (placed : η id = some r) (keep : kept r) :
    η.moved kept φ id = some (φ r) := by
  rw [moved, placed]
  exact if_pos keep

end Placement

namespace Memory.Shows

section Moved

variable {m : Memory} {A : IdealMemory} {η : Placement} {harmless : Word → Prop}
variable (shows_ : m.Shows A η) (valid : A.Valid harmless)
  (stray : ∀ w, harmless w → Stray addressGuard m.space.bytes.size ⟨w⟩)
variable {g' : ObjectGraph} {φ : Ref → Ref} (copy : (m.graph η.objects).CopyOf g' φ)

include shows_ stray in
/-- A value in a slot becomes what the collector makes of its word. -/
theorem word?_moved {shape : Shape} {v : Value} {w : Word} (slot : A.Slot harmless shape v)
    (word : η.word? v = some w)
    (reach : (⟨w⟩ : Ref) ∈ η.objects → (m.graph η.objects).Reachable ⟨w⟩) :
    (η.moved (m.graph η.objects).Reachable φ).word? v =
      some ((m.graph η.objects).follow φ ⟨w⟩).word := by
  cases v with
  | object id =>
    have placed := Placement.word?_object_eq_some word
    have object : (⟨w⟩ : Ref) ∈ η.objects := ⟨id, placed⟩
    rw [follow_of_mem object]
    exact Placement.word?_object (Placement.moved_of_kept placed (reach object))
  | raw x =>
    obtain rfl : x = w := Option.some.inj word
    have absent : (⟨x⟩ : Ref) ∉ η.objects := by
      cases shape with
      | classObject =>
        rcases slot with null | ⟨id, -, eq⟩
        · cases null
          exact shows_.null_not_object
        · cases eq
      | dictionary =>
        rcases slot with null | ⟨id, -, eq⟩
        · cases null
          exact shows_.null_not_object
        · cases eq
      | ordinary =>
        rintro ⟨id, placed⟩
        exact shows_.not_stray placed (stray x slot)
    rw [follow_of_not_mem absent]
    rfl

include shows_ valid stray copy in
/-- Each copy shows the object. -/
theorem object_moved {id : Nat} {r : Ref} (placed : η id = some r)
    (reach : (m.graph η.objects).Reachable r) :
    ShowsObject g'.bytes (η.moved (m.graph η.objects).Reachable φ) (φ r) (A.store id) := by
  have wf := shows_.wellFormed valid stray
  have slot_moved : ∀ slot ∈ (m.graph η.objects).slots r, ∀ v w, η.word? v = some w →
      m.space.bytes.word? (r.offset slot.1) = some w → A.Slot harmless slot.2 v →
      ∃ w', (η.moved (m.graph η.objects).Reachable φ).word? v = some w' ∧
        g'.bytes.word? ((φ r).offset slot.1) = some w' := by
    intro slot hs v w value word typed
    have reach' : (⟨w⟩ : Ref) ∈ η.objects → (m.graph η.objects).Reachable ⟨w⟩ :=
      fun object => .slot reach hs word object
    exact ⟨_, shows_.word?_moved stray typed value reach', copy.slot r reach slot hs ⟨w⟩ word⟩
  refine ⟨?header, ?fields, ?payload⟩
  case header =>
    obtain ⟨size, c, read, length, cls⟩ := shows_.header placed
    refine ⟨size, _, copy.header r reach _ size c read, length, ?_⟩
    have typed : A.Slot harmless .classObject (A.store id).cls :=
      valid.cls id (shows_.heap.named id r placed)
    refine shows_.word?_moved stray typed cls ?_
    intro object
    refine @Reachable.slot _ r c (Header.classOffset, .classObject) reach ?_ ?_ object
    · rw [ObjectGraph.slots_eq (show (m.graph η.objects).header? r = _ from read)]
      exact List.mem_cons_self
    · exact ((Header.read?_eq_some_iff _ _ _).1 read).2.2.2.2.2
  case fields =>
    intro i v field
    obtain ⟨w, value, word⟩ := (shows_.heap.object id r placed).fields i v field
    rcases shows_.field_slot_or_raw valid placed η.objects field with
      ⟨shape, hs, typed⟩ | ⟨outside, x, rfl⟩
    · exact slot_moved _ hs v w value word typed
    · refine ⟨x, rfl, ?_⟩
      cases value
      have hi : i < (A.store id).content.values.length := (List.getElem?_eq_some_iff.1 field).1
      have inside : 11 + i * 4 + 4 ≤ (m.graph η.objects).extent r := by
        rw [shows_.extent_eq placed]
        cases content : (A.store id).content with
        | bytes xs =>
          rw [content] at hi
          cases hi
        | fields values =>
          rw [content] at hi
          simp only [Content.values] at hi
          simp only [Content.extent]
          omega
      exact (copy.word_raw wf reach inside outside).trans word
  case payload =>
    intro xs content i hi
    refine (copy.raw r reach (11 + i) ?_ ?_).trans ((shows_.heap.object id r placed).payload xs content i hi)
    · rw [shows_.extent_eq placed, content]
      simp only [Content.extent]
      omega
    · intro slot hs
      obtain ⟨size, c, read, -, -, slots⟩ := shows_.slots_eq placed η.objects
      rw [slots, content] at hs
      unfold Shape.slots Content.kind at hs
      rw [if_neg (by simp), List.mem_singleton] at hs
      subst hs
      simp only [Header.classOffset]
      omega

include shows_ valid stray in
/-- A live cell becomes what the collector makes of its word. -/
theorem live_moved {k : Nat} {v : Value} {w : Word} (cell : A.cells[k]? = some v)
    (live : ¬Control A.bases k) (word : η.word? v = some w) :
    (η.moved (m.graph η.objects).Reachable φ).word? v =
      some ((m.graph η.objects).follow φ ⟨w⟩).word := by
  have typed : A.Slot harmless .ordinary v := valid.live k v cell live
  refine shows_.word?_moved stray typed word ?_
  intro object
  refine .root (List.mem_append_right _ ?_) object
  exact (shows_.mem_liveWords valid _).2 ⟨k, v, cell, live, word⟩

/-- A table of the memory becomes the table of the new addresses. -/
theorem table_moved {table : List Nat} {entries : List Ref} (eq : table.map η = entries.map some)
    (roots : ∀ a ∈ entries, a ∈ m.rootSlots.all) :
    table.map (η.moved (m.graph η.objects).Reachable φ) =
      (entries.map ((m.graph η.objects).follow φ)).map some := by
  have each : ∀ id ∈ table, η.moved (m.graph η.objects).Reachable φ id =
      (η id).map ((m.graph η.objects).follow φ) := by
    intro id mem
    obtain ⟨r, hr, placed⟩ := placed_of_mem eq mem
    have object : r ∈ η.objects := ⟨id, placed⟩
    have reach : (m.graph η.objects).Reachable r := .root (roots r hr) object
    rw [Placement.moved_of_kept placed reach, placed, Option.map_some, follow_of_mem object]
  calc table.map (η.moved (m.graph η.objects).Reachable φ)
      = table.map fun id => (η id).map ((m.graph η.objects).follow φ) := List.map_congr_left each
    _ = (table.map η).map (Option.map ((m.graph η.objects).follow φ)) := by rw [List.map_map]; rfl
    _ = (entries.map ((m.graph η.objects).follow φ)).map some := by
      rw [eq, List.map_map, List.map_map]
      rfl

include shows_ valid stray in
theorem cells_moved (k : Nat) (v : Value) (cell : A.cells[k]? = some v) :
    ∃ w, (η.moved (m.graph η.objects).Reachable φ).word? v = some w ∧
      (m.stack.replaceWords ((m.graph η.objects).follow φ)
        (m.stack.liveOffsets ⟨A.bases, none⟩)).bytes.word? (4 * k) = some w := by
  obtain ⟨w, value, word⟩ := shows_.stack.cell k v cell
  have aligned : ∀ o ∈ m.stack.liveOffsets ⟨A.bases, none⟩, o % 4 = 0 := by
    intro o ho
    obtain ⟨j, -, -, rfl⟩ := (FrameStack.mem_liveOffsets shows_.stack _ _).1 ho
    omega
  by_cases control : Control A.bases k
  · obtain ⟨x, raw⟩ := valid.framed.raw_of_control control
    rw [cell] at raw
    cases raw
    refine ⟨x, rfl, ?_⟩
    rw [FrameStack.word?_replaceWords_of_not_mem]
    · rw [word, ← value]
      rfl
    · intro o ho
      obtain ⟨j, -, live, rfl⟩ := (FrameStack.mem_liveOffsets shows_.stack _ _).1 ho
      have : j ≠ k := by
        rintro rfl
        exact live control
      omega
  · refine ⟨_, shows_.live_moved valid stray cell control value, ?_⟩
    refine FrameStack.word?_replaceWords_of_mem _ (FrameStack.nodup_liveOffsets _) aligned ?_ _ word
    exact (FrameStack.mem_liveOffsets shows_.stack _ _).2
      ⟨k, (List.getElem?_eq_some_iff.1 cell).1, control, rfl⟩

include shows_ valid stray in
/-- **A collection changes the placement only.** -/
theorem collected : ∃ m' η', m.collected = .ok m' ∧ m'.Shows A η' ∧
    m'.space.bytes.size = m.space.bytes.size := by
  have wf := shows_.wellFormed valid stray
  have live_words : ∀ o ∈ m.stack.liveOffsets ⟨A.bases, none⟩,
      ∃ w, m.stack.bytes.word? o = some w := by
    intro o ho
    obtain ⟨k, hk, -, rfl⟩ := (FrameStack.mem_liveOffsets shows_.stack _ _).1 ho
    obtain ⟨w, -, word⟩ := shows_.stack.cell k _ (List.getElem?_eq_getElem hk)
    exact ⟨w, word⟩
  obtain ⟨r, φ, moved, run, sound, copy, collects⟩ :=
    m.collected_copy shows_.heap.sound wf (shows_.chain valid) live_words
  have extent : ∀ {id a}, η id = some a →
      (m.graph η.objects).extent a = (A.store id).content.extent := fun placed =>
    shows_.extent_eq placed _
  refine ⟨_, η.moved (m.graph η.objects).Reachable φ, run, ?shows_, collects.size⟩
  case shows_ =>
    refine
      { heap := ⟨sound, ?named, ?low, ?high, ?object, ?apart, ?compact⟩
        stack := ⟨(FrameStack.size_replaceWords _ _ _).trans shows_.stack.size_eq,
          (FrameStack.sp_replaceWords _ _ _).trans shows_.stack.sp_eq,
          (FrameStack.bp_replaceWords _ _ _).trans shows_.stack.bp_eq,
          shows_.cells_moved valid stray⟩
        classes := ?classes
        dictionaries := ?dictionaries
        code := shows_.code
        pc := shows_.pc
        methods := shows_.methods
        constants := shows_.constants }
    case named =>
      intro id r' here
      obtain ⟨a, placed, -, -⟩ := Placement.moved_eq_some here
      exact shows_.heap.named id a placed
    case low =>
      intro id r' here
      obtain ⟨a, placed, reach, rfl⟩ := Placement.moved_eq_some here
      exact (copy.inside a reach).1
    case high =>
      intro id r' here
      obtain ⟨a, placed, reach, rfl⟩ := Placement.moved_eq_some here
      rw [← extent placed]
      exact (copy.inside a reach).2
    case object =>
      intro id r' here
      obtain ⟨a, placed, reach, rfl⟩ := Placement.moved_eq_some here
      exact shows_.object_moved valid stray copy placed reach
    case apart =>
      intro id id' r₁ r₂ here here' ne
      obtain ⟨a, placed, reach, rfl⟩ := Placement.moved_eq_some here
      obtain ⟨c, placed', reach', rfl⟩ := Placement.moved_eq_some here'
      rw [← extent placed, ← extent placed']
      refine copy.apart a c reach reach' ?_
      rintro rfl
      exact ne (shows_.injective placed placed')
    case compact =>
      have before := shows_.heap.compact
      have top := collects.top
      have copied := collects.copied
      have reclaimed := collects.reclaimed
      have used : r.space.used ≤ m.space.used := by
        unfold SemiSpaces.used at reclaimed ⊢
        omega
      exact used.trans before
    case classes =>
      rw [Array.toList_map]
      refine table_moved shows_.classes ?_
      intro a mem
      exact List.mem_append_left _ (List.mem_append_left _ mem)
    case dictionaries =>
      rw [Array.toList_map]
      refine table_moved shows_.dictionaries ?_
      intro a mem
      exact List.mem_append_left _ (List.mem_append_right _ mem)

end Moved

end Memory.Shows

end ObjectMachine
