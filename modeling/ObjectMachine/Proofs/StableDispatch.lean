/-
  ObjectMachine/Proofs/StableDispatch.lean
  ========================================
  **Collections do not change dispatch.**

  A search reads the class in a header, the links of classes, the words of dictionaries and
  the names of classes, and the collector treats each of these by a rule of its own: links are
  followed, dictionaries and names are copied as they are.  So a search among the copies takes
  the same steps as the search among the originals.
-/
import ObjectMachine.Proofs.CollectedMemory
import ObjectMachine.Proofs.NearestMethod

namespace ObjectMachine.Machine

open ObjectGraph

variable {m m' : Memory} {objects : Set Ref} {φ : Ref → Ref}

theorem ne_null_of_view {a : Ref} {v : ObjectView} (h : m.view a = .ok v) : a ≠ Ref.null := by
  rintro rfl
  rw [view_null] at h
  cases h

theorem ne_null_of_classView {a : Ref} {c : ClassView} (h : classView m a = .ok c) :
    a ≠ Ref.null := by
  rintro rfl
  rw [classView_null] at h
  cases h

theorem classView_error {a : Ref} {e : MemoryError} (h : m.view a = .error e) :
    classView m a = .error (.memory e) := by
  unfold classView
  rw [h]
  rfl

section Copies

variable (wf : m.WellFormed objects) (copied : m.CopiedTo m' objects φ)

include wf copied in
/-- A root that is no object stays, and the answer to it is the same error as before. -/
theorem view_absent {a : Ref} (root : a ∈ m.rootSlots.all) (absent : a ∉ objects) :
    (m.graph objects).follow φ a = a ∧ ∃ e, m.view a = .error e ∧ m'.view a = .error e := by
  have stray := (wf.graph.root a root).resolve_left absent
  have error := Memory.view_stray wf.sound stray
  exact ⟨follow_of_not_mem absent, _, error, (copied.view_stray wf stray).trans error⟩

/-! ### Classes -/

include wf copied in
/-- **The copy of a class** is a class with the same name, whose links lead to the copies. -/
theorem classView_copy {a : Ref} (table : a ∈ m.classes) (object : a ∈ objects) :
    ∃ c c', classView m a = .ok c ∧ classView m' (φ a) = .ok c' ∧ c'.name = c.name ∧
      c'.superclass = (m.graph objects).follow φ c.superclass ∧
      (c.superclass = Ref.null ∨ c.superclass ∈ m.classes) ∧
      c'.methods = (m.graph objects).follow φ c.methods ∧
      (c.methods = Ref.null ∨ c.methods ∈ m.dictionaries) := by
  have table' : a ∈ (m.graph objects).roots.classes := Array.mem_toList_iff.2 table
  have reach : (m.graph objects).Reachable a :=
    .root (List.mem_append_left _ (List.mem_append_left _ table')) object
  obtain ⟨kind, size, cls, found, view⟩ := wf.view object
  obtain ⟨header, found', pointers, enough⟩ := wf.graph.class_layout a object table'
  obtain rfl := Option.some.inj (found.symm.trans found')
  dsimp only at pointers enough
  subst pointers
  have slots : (m.graph objects).slots a = [(7, .classObject), (15, .classObject),
      (19, .classObject), (27, .dictionary)] := by
    rw [slots_eq found, RootSlots.shapeOf, if_pos table']
    rfl
  have extent : 31 ≤ (m.graph objects).extent a := by
    rw [extent_eq found]
    simp only [Header.objectBytes, ObjectKind.objectBytes, ObjectKind.payloadBytes]
    simp only [ClassField.count] at enough
    omega
  have word : ∀ i < 5, ∃ w, (m.graph objects).word? a (11 + i * 4) = some w := by
    intro i lt
    have high : a.offset ((m.graph objects).extent a) ≤ m.space.top := wf.graph.high a object
    have := wf.sound.top_le_end
    have := wf.sound.end_le_size
    apply (Bytes.word?_eq_some_iff_le _ _).2
    change a.offset 0 + (11 + i * 4) + 4 ≤ m.space.bytes.size
    change a.offset 0 + (m.graph objects).extent a ≤ m.space.top at high
    omega
  -- name and size are raw, the three links are slots
  have raw : ∀ i < 5, i = 0 ∨ i = 3 → ∀ w, (m.graph objects).word? a (11 + i * 4) = some w →
      m'.space.bytes.word? (fieldOffset (φ a) i) = some w := by
    intro i lt is w found
    refine (copied.copy.word_raw wf.graph reach (by omega) ?_).trans found
    intro slot mem
    rw [slots] at mem
    simp only [List.mem_cons, List.not_mem_nil, or_false] at mem
    rcases mem with rfl | rfl | rfl | rfl <;> dsimp only <;> omega
  have link : ∀ slot ∈ (m.graph objects).slots a, ∀ w,
      (m.graph objects).word? a slot.1 = some w →
      m'.space.bytes.word? ((φ a).offset slot.1) = some ((m.graph objects).follow φ ⟨w⟩).word ∧
        (m.graph objects).Allowed addressGuard m.space.bytes.size slot.2 ⟨w⟩ := by
    intro slot mem w found
    exact ⟨copied.copy.slot a reach slot mem ⟨w⟩ found, wf.graph.slot a object slot mem w found⟩
  rw [slots] at link
  simp only [List.forall_mem_cons] at link
  obtain ⟨-, links⟩ := link
  obtain ⟨name, word₀⟩ := word 0 (by decide)
  obtain ⟨superclass, word₁⟩ := word 1 (by decide)
  obtain ⟨metaclass, word₂⟩ := word 2 (by decide)
  obtain ⟨count, word₃⟩ := word 3 (by decide)
  obtain ⟨methods, word₄⟩ := word 4 (by decide)
  have before := classView_of_words view rfl enough ⟨word₀, word₁, word₂, word₃, word₄⟩
  have after := classView_of_words (copied.view wf reach found) rfl enough
    ⟨raw 0 (by decide) (by decide) name word₀, (links.1 superclass word₁).1,
      (links.2.1 metaclass word₂).1, raw 3 (by decide) (by decide) count word₃,
      (links.2.2.1 methods word₄).1⟩
  refine ⟨_, _, before, after, rfl, rfl, ?_, rfl, ?_⟩
  · exact (links.1 superclass word₁).2.imp_right Array.mem_toList_iff.1
  · exact (links.2.2.1 methods word₄).2.imp_right Array.mem_toList_iff.1

include wf copied in
/-- The copy of a dictionary holds the same words. -/
theorem fieldWords_copy {d : Ref} (table : d ∈ m.dictionaries) (object : d ∈ objects) :
    ∃ v v', m.view d = .ok v ∧ m'.view (φ d) = .ok v' ∧ v'.fieldWords = v.fieldWords := by
  have table' : d ∈ (m.graph objects).roots.dictionaries := Array.mem_toList_iff.2 table
  have reach : (m.graph objects).Reachable d :=
    .root (List.mem_append_left _ (List.mem_append_right _ table')) object
  obtain ⟨kind, size, cls, found, view⟩ := wf.view object
  refine ⟨_, _, view, copied.view wf reach found, ObjectView.fieldWords_congr rfl rfl ?_⟩
  intro i lt pointers
  dsimp only at lt pointers
  subst pointers
  apply copied.copy.word_raw wf.graph reach
  · rw [extent_eq found]
    simp only [Header.objectBytes, ObjectKind.objectBytes, ObjectKind.payloadBytes]
    omega
  · have other : d ∉ (m.graph objects).roots.classes := fun table =>
      wf.graph.tables_apart d object table table'
    intro slot mem
    rw [slots_eq found, RootSlots.shapeOf, if_neg other, if_pos table', Shape.slots, if_pos rfl,
      List.mem_singleton] at mem
    subst mem
    simp only [Header.classOffset]
    omega

include wf copied in
/-- A class has the same methods of its own. -/
theorem ownMethod_copy {c c' : ClassView} (selector : String)
    (methods : c'.methods = (m.graph objects).follow φ c.methods)
    (entry : c.methods = Ref.null ∨ c.methods ∈ m.dictionaries) :
    ownMethod m' selector c' = ownMethod m selector c := by
  unfold ownMethod
  rw [methods]
  rcases entry with null | table
  · rw [null, wf.follow_null]
    rfl
  · by_cases object : c.methods ∈ objects
    · obtain ⟨v, v', view, view', words⟩ := fieldWords_copy wf copied table object
      have nonnull := (Ref.isNull_eq_false_iff _).2 (ne_null_of_view view)
      have nonnull' := (Ref.isNull_eq_false_iff _).2 (ne_null_of_view view')
      rw [follow_of_mem object, nonnull, nonnull', view, view']
      change findMethod m' selector v'.fieldWords = findMethod m selector v.fieldWords
      rw [words, findMethod_congr copied.methods]
    · have root : c.methods ∈ m.rootSlots.all :=
        List.mem_append_left _ (List.mem_append_right _ (Array.mem_toList_iff.2 table))
      obtain ⟨stays, e, before, after⟩ := view_absent wf copied root object
      rw [stays, before, after]
      rfl

/-! ### The search -/

include wf copied in
/-- **The search takes the same steps**, from every class or from none. -/
theorem inheritedMethod_copy (selector : String) (budget : Nat) {a : Ref}
    (entry : a = Ref.null ∨ a ∈ m.classes) :
    inheritedMethod m' selector budget ((m.graph objects).follow φ a) =
      inheritedMethod m selector budget a := by
  induction budget generalizing a with
  | zero => rfl
  | succ budget ih =>
    rcases entry with rfl | table
    · rw [wf.follow_null]
      rfl
    · by_cases object : a ∈ objects
      · obtain ⟨c, c', before, after, -, superclass, above, methods, dictionary⟩ :=
          classView_copy wf copied table object
        rw [follow_of_mem object, inheritedMethod_link _ _ _ (ne_null_of_classView before),
          inheritedMethod_link _ _ _ (ne_null_of_classView after), before, after, ok_bind, ok_bind,
          ownMethod_copy wf copied selector methods dictionary, superclass, ih above]
      · have root : a ∈ m.rootSlots.all :=
          List.mem_append_left _ (List.mem_append_left _ (Array.mem_toList_iff.2 table))
        obtain ⟨stays, e, before, after⟩ := view_absent wf copied root object
        rw [stays]
        by_cases null : a = Ref.null
        · rw [null]
          rfl
        · rw [inheritedMethod_link _ _ _ null, inheritedMethod_link _ _ _ null, classView_error before,
            classView_error after]
          rfl

/-! ### Names -/

/-- Every class that is an object has a name. -/
def Named (m : Memory) (objects : Set Ref) : Prop :=
  ∀ a ∈ m.classes, a ∈ objects → ∃ name, className? m a = some name

include wf copied in
theorem className?_copy {a : Ref} (table : a ∈ m.classes) (object : a ∈ objects) :
    className? m' (φ a) = className? m a := by
  obtain ⟨c, c', before, after, name, -⟩ := classView_copy wf copied table object
  unfold className? Memory.constantAt
  rw [before, after, copied.constants]
  dsimp only
  rw [name]

include wf copied in
/-- **Names stay.** -/
theorem className_copy (named : Named m objects) {a : Ref} (entry : a = Ref.null ∨ a ∈ m.classes) :
    className m' ((m.graph objects).follow φ a) = className m a := by
  rcases entry with rfl | table
  · rw [wf.follow_null]
    rfl
  · by_cases object : a ∈ objects
    · obtain ⟨name, known⟩ := named a table object
      unfold className
      rw [follow_of_mem object, className?_copy wf copied table object, known]
      rfl
    · have root : a ∈ m.rootSlots.all :=
        List.mem_append_left _ (List.mem_append_left _ (Array.mem_toList_iff.2 table))
      obtain ⟨stays, e, before, after⟩ := view_absent wf copied root object
      unfold className className?
      rw [stays, classView_error before, classView_error after]

theorem mem_of_classRef {id : ClassId} {a : Ref} (h : m.classRef id = .ok a) : a ∈ m.classes := by
  unfold Memory.classRef at h
  split at h
  · rename_i found
    cases h
    exact Array.mem_of_getElem? found
  · cases h

include wf copied in
/-- The name of the class with an index. -/
theorem className_classRef_copy (named : Named m objects) (id : ClassId) :
    (m'.classRef id).map (className m') = (m.classRef id).map (className m) := by
  rw [copied.classRef_eq]
  cases found : m.classRef id with
  | error e => rfl
  | ok a => exact congrArg Except.ok (className_copy wf copied named (Or.inr (mem_of_classRef found)))

include wf copied in
theorem classNamed?_copy (named : Named m objects) (name : String) :
    classNamed? m' name = classNamed? m name := by
  have ids : m'.classIds = m.classIds := by
    unfold Memory.classIds
    rw [copied.classes, Array.size_map]
  unfold classNamed?
  rw [ids]
  congr 1
  funext id
  rw [copied.classRef_eq]
  cases found : m.classRef id with
  | error e => rfl
  | ok a =>
    change (className m' ((m.graph objects).follow φ a) == name) = (className m a == name)
    rw [className_copy wf copied named (Or.inr (mem_of_classRef found))]

/-! ### Dispatch -/

include wf copied in
/-- A copy answers as the original did, or fails as it did. -/
theorem lookup_copy (named : Named m objects) {a : Ref} (reach : (m.graph objects).Reachable a)
    (selector : String) : lookup m' (φ a) selector = lookup m a selector := by
  obtain ⟨kind, size, c, found, view⟩ := wf.view reach.object
  have before : receiverClass m a = .ok c := by
    rw [receiverClass, Memory.header_of_view view]
    rfl
  have after : receiverClass m' (φ a) = .ok ((m.graph objects).follow φ c) := by
    rw [receiverClass, Memory.header_of_view (copied.view wf reach found)]
    rfl
  have entry : c = Ref.null ∨ c ∈ m.classes := by
    have slot : (Header.classOffset, Shape.classObject) ∈ (m.graph objects).slots a := by
      rw [slots_eq found]
      exact List.mem_cons_self
    have word := ((Header.read?_eq_some_iff _ _ _).1 found).2.2.2.2.2
    exact (wf.graph.slot a reach.object _ slot c.word word).imp_right Array.mem_toList_iff.1
  have length : m'.classes.size = m.classes.size := by rw [copied.classes, Array.size_map]
  rw [lookup_eq before, lookup_eq after, length, inheritedMethod_copy wf copied selector _ entry,
    className_copy wf copied named entry]

end Copies

/-- **Collections do not change dispatch.**  In any memory whose classes have names and whose
    references are in order, a collection ends exactly if the stack can be read, and after it
    every reachable object answers every selector as before, or fails with the same error; every
    name stands for the same class, and every class has the same name. -/
theorem collect_preserves_dispatch (wf : m.WellFormed objects) (named : Named m objects) :
    ((∃ m', Memory.collect m = .ok () m') ↔ m.stack.Readable) ∧
    ∀ m', Memory.collect m = .ok () m' → ∃ φ, m.CopiedTo m' objects φ ∧
      (∀ a, (m.graph objects).Reachable a → ∀ selector,
        lookup m' (φ a) selector = lookup m a selector) ∧
      (∀ name, classNamed? m' name = classNamed? m name) ∧
      ∀ id, (m'.classRef id).map (className m') = (m.classRef id).map (className m) := by
  refine ⟨⟨?_, ?_⟩, ?_⟩
  · rintro ⟨m', run⟩
    exact Memory.readable_of_collect run
  · intro readable
    obtain ⟨m', φ, live, run, -⟩ := wf.collect_eq readable
    exact ⟨m', run⟩
  · intro m' run
    obtain ⟨φ, copied⟩ := wf.copiedTo run
    exact ⟨φ, copied, fun a reach => lookup_copy wf copied named reach,
      classNamed?_copy wf copied named, className_classRef_copy wf copied named⟩

/-! ### An instance in the circle of classes -/

/-- The circle of classes, and the instance of one of them on the stack. -/
def rootedCircle : Memory := { circleMemory with stack := ⟨(4181 : Word).bytes.toArray, 4, noFrame⟩ }

def circleAddresses : Set Ref := {⟨4096⟩, ⟨4127⟩, ⟨4158⟩, ⟨4181⟩}

theorem Circle.withStack (circle : Circle m) (stack : FrameStack) :
    Circle { m with stack := stack } :=
  { circle with }

theorem circle_rootedCircle : Circle rootedCircle := circle_circleMemory.withStack _

theorem rootSlots_rootedCircle :
    rootedCircle.rootSlots = ⟨[⟨4096⟩, ⟨4127⟩], [⟨4158⟩], [⟨4181⟩]⟩ := by
  have live : rootedCircle.stack.liveWords = [⟨4181⟩] := by decide
  unfold Memory.rootSlots
  rw [live]
  rfl

theorem rootedCircle_readable : rootedCircle.stack.Readable := ⟨⟨[], none⟩, by decide, by decide⟩

theorem rootedCircle_wellFormed : rootedCircle.WellFormed circleAddresses where
  sound :=
    { size_eq := size_circle
      start_le_top := by decide
      top_le_end := by decide
      addressable := by
        rw [show rootedCircle.space.bytes.size = 4352 from size_circle]
        decide }
  graph := by
    have moon := read?_circle 0 ⟨.pointers, 5, .normal Ref.null⟩ ⟨4096⟩ rfl (by decide) (by decide)
    have tide := read?_circle 31 ⟨.pointers, 5, .normal Ref.null⟩ ⟨4127⟩ rfl (by decide) (by decide)
    have dictionary := read?_circle 62 ⟨.pointers, 3, .normal Ref.null⟩ ⟨4158⟩ rfl (by decide)
      (by decide)
    have instance_ := read?_circle 85 ⟨.bytes, 0, .normal ⟨4096⟩⟩ ⟨4181⟩ rfl (by decide) (by decide)
    have word := fun j h => same_circleObjects.word? j h
    -- only these facts about the buffer matter from here on
    have graph : rootedCircle.graph circleAddresses = ⟨circleMemory.space.bytes, 4096, 4192,
        ⟨[⟨4096⟩, ⟨4127⟩], [⟨4158⟩], [⟨4181⟩]⟩, circleAddresses⟩ := by
      unfold Memory.graph
      rw [rootSlots_rootedCircle]
      rfl
    rw [graph, show rootedCircle.space.bytes.size = 4352 from size_circle]
    clear graph
    generalize circleMemory.space.bytes = b at *
    apply wellFormed_of_listed [(⟨4096⟩, ⟨.pointers, 5, .normal Ref.null⟩),
      (⟨4127⟩, ⟨.pointers, 5, .normal Ref.null⟩), (⟨4158⟩, ⟨.pointers, 3, .normal Ref.null⟩),
      (⟨4181⟩, ⟨.bytes, 0, .normal ⟨4096⟩⟩)] (Nat.le_refl 4096) (show 4192 ≤ 4352 by decide)
    case complete =>
      rintro a (rfl | rfl | rfl | rfl) <;> simp
    case header =>
      simp only [List.forall_mem_cons, List.not_mem_nil, false_imp_iff, implies_true, and_true]
      exact ⟨⟨moon, _, rfl⟩, ⟨tide, _, rfl⟩, ⟨dictionary, _, rfl⟩, instance_, _, rfl⟩
    case inside => decide
    case apart => decide
    case root =>
      intro a mem
      have mem : a ∈ [(⟨4096⟩ : Ref), ⟨4127⟩, ⟨4158⟩, ⟨4181⟩] := mem
      exact Or.inl (by simpa [circleAddresses] using mem)
    case slot =>
      simp only [List.forall_mem_cons, List.not_mem_nil, false_imp_iff, implies_true, and_true]
      refine ⟨?moon, ?tide, ?dictionary, ?instance_⟩
      case moon =>
        change ∀ slot ∈ [(7, Shape.classObject), (15, .classObject), (19, .classObject),
          (27, .dictionary)], _
        simp only [List.forall_mem_cons, List.not_mem_nil, false_imp_iff, implies_true, and_true]
        exact ⟨⟨_, (word 7 (by decide)).trans (by decide), Or.inl rfl⟩,
          ⟨4127, (word 15 (by decide)).trans (by decide),
            Or.inr (List.mem_cons_of_mem _ List.mem_cons_self)⟩,
          ⟨_, (word 19 (by decide)).trans (by decide), Or.inl rfl⟩,
          _, (word 27 (by decide)).trans (by decide), Or.inl rfl⟩
      case tide =>
        change ∀ slot ∈ [(7, Shape.classObject), (15, .classObject), (19, .classObject),
          (27, .dictionary)], _
        simp only [List.forall_mem_cons, List.not_mem_nil, false_imp_iff, implies_true, and_true]
        exact ⟨⟨_, (word 38 (by decide)).trans (by decide), Or.inl rfl⟩,
          ⟨4096, (word 46 (by decide)).trans (by decide), Or.inr List.mem_cons_self⟩,
          ⟨_, (word 50 (by decide)).trans (by decide), Or.inl rfl⟩,
          4158, (word 58 (by decide)).trans (by decide), Or.inr List.mem_cons_self⟩
      case dictionary =>
        change ∀ slot ∈ [(7, Shape.classObject)], _
        rw [List.forall_mem_singleton]
        exact ⟨_, (word 69 (by decide)).trans (by decide), Or.inl rfl⟩
      case instance_ =>
        change ∀ slot ∈ [(7, Shape.classObject)], _
        rw [List.forall_mem_singleton]
        exact ⟨4096, (word 92 (by decide)).trans (by decide), Or.inr List.mem_cons_self⟩
    case table => decide

section Circle

variable (circle : Circle m)
include circle

theorem Circle.named : Named m circleAddresses := by
  intro a table _
  rw [circle.classes] at table
  obtain rfl | rfl : a = ⟨4096⟩ ∨ a = ⟨4127⟩ := by simpa using table
  · refine ⟨"Moon", className?_of_classView circle.moon ?_⟩
    rw [Memory.constantAt, circle.constants]
    rfl
  · refine ⟨"Tide", className?_of_classView circle.tide ?_⟩
    rw [Memory.constantAt, circle.constants]
    rfl

/-- The method that answers is one of the superclass. -/
theorem Circle.lookup_size : lookup m ⟨4181⟩ "size" = .ok ⟨"size", ⟨0⟩, 0⟩ := by
  have found : receiverClass m ⟨4181⟩ = .ok ⟨4096⟩ := by
    rw [receiverClass, circle.receiver]
    rfl
  rw [lookup_eq found]
  rcases inheritedMethod_enough (fun k _ => circle.orderly k) (Nat.le_succ m.classes.size) with
    ⟨k, method, defined, run⟩ | ⟨nowhere, -⟩
  · rw [run, defined.unique circle.definedAt]
    rfl
  · exact absurd (nowhere 1) circle.definedAt.ne_none

end Circle

theorem circle_preserves_dispatch : ∃ (m' : Memory) (φ : Ref → Ref),
    Memory.collect rootedCircle = .ok () m' ∧
      lookup m' (φ ⟨4181⟩) "size" = .ok ⟨"size", ⟨0⟩, 0⟩ ∧
      (∀ selector, lookup m' (φ ⟨4181⟩) selector = lookup rootedCircle ⟨4181⟩ selector) ∧
      (∀ name, classNamed? m' name = classNamed? rootedCircle name) ∧
      ∀ id, (m'.classRef id).map (className m') =
        (rootedCircle.classRef id).map (className rootedCircle) := by
  obtain ⟨ends, kept⟩ := collect_preserves_dispatch rootedCircle_wellFormed circle_rootedCircle.named
  obtain ⟨m', run⟩ := ends.2 rootedCircle_readable
  obtain ⟨φ, -, dispatch, classes, names⟩ := kept m' run
  have reach : (rootedCircle.graph circleAddresses).Reachable ⟨4181⟩ := by
    apply Reachable.root
    · change (⟨4181⟩ : Ref) ∈ rootedCircle.rootSlots.all
      rw [rootSlots_rootedCircle]
      decide
    · exact Or.inr (Or.inr (Or.inr rfl))
  have answers := dispatch ⟨4181⟩ reach
  exact ⟨m', φ, run, (answers _).trans circle_rootedCircle.lookup_size, answers, classes, names⟩

end ObjectMachine.Machine
