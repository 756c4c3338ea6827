/-
  ObjectMachine/Proofs/ClassTables.lean
  =====================================
  **Class tables** — what follows from the records of the classes.

  What the class table holds follows from the records, and that the chains of superclasses end
  follows from the records alone: each class is made after its superclass, except for Metaclass,
  which is the first one and is put below Object later.
-/
import ObjectMachine.Proofs.LockstepLibrary
import ObjectMachine.Proofs.NearestMethod

namespace ObjectMachine

open IdealMemory

/-! ### Records of a hierarchy -/

/-- How far a class is from the top at most.  Object is above Metaclass, which was there first. -/
def classRank (k : Nat) : Nat := if k = 0 then 1 else if k = 1 then 0 else k

/-- **A hierarchy.**  The library comes first, Metaclass is the metaclass of all, and every
    superclass is nearer to the top. -/
structure Hierarchy (records : List ClassRecord) : Prop where
  library : libraryRecords <+: records
  metaclass : ∀ r ∈ records, r.metaclass = some ⟨0⟩
  above : ∀ (k : Nat) r id, records[k]? = some r → r.superclass = some id →
    classRank id.index.toNat < classRank k

namespace Hierarchy

variable {records : List ClassRecord}

theorem of_library : Hierarchy libraryRecords := by
  refine ⟨List.prefix_refl _, by decide, fun k r id record superclass => ?_⟩
  have all : ∀ k : Fin libraryRecords.length, ∀ id ∈ (libraryRecords.get k).superclass,
      classRank id.index.toNat < classRank k := by decide
  obtain ⟨inside, rfl⟩ := List.getElem?_eq_some_iff.1 record
  exact all ⟨k, inside⟩ id superclass

theorem seven_le (h : Hierarchy records) : 7 ≤ records.length := h.library.length_le

theorem classRank_lt (h : Hierarchy records) {k : Nat} (inside : k < records.length) :
    classRank k < records.length := by
  have := h.seven_le
  unfold classRank
  split
  · omega
  · split <;> omega

/-- A class whose superclass is there already. -/
theorem append (h : Hierarchy records) {r : ClassRecord} (metaclass : r.metaclass = some ⟨0⟩)
    (superclass : ∀ id, r.superclass = some id → id.index.toNat < records.length) :
    Hierarchy (records ++ [r]) := by
  refine ⟨h.library.trans (List.prefix_append _ _), ?_, fun k r' id record above => ?_⟩
  · intro r' mem
    rcases List.mem_append.1 mem with mem | mem
    · exact h.metaclass r' mem
    · rw [List.mem_singleton.1 mem, metaclass]
  · by_cases old : k < records.length
    · rw [List.getElem?_append_left old] at record
      exact h.above k r' id record above
    · obtain rfl : k = records.length := by
        have := (List.getElem?_eq_some_iff.1 record).1
        rw [List.length_append, List.length_singleton] at this
        omega
      rw [List.getElem?_concat_length] at record
      cases record
      have lower := h.classRank_lt (superclass id above)
      have last : classRank records.length = records.length := by
        have := h.seven_le
        unfold classRank
        rw [if_neg (by omega), if_neg (by omega)]
      omega

/-- Without a superclass there are Object and what was made later. -/
theorem root_cases (h : Hierarchy records) {k : Nat} {r : ClassRecord} (record : records[k]? = some r)
    (root : r.superclass = none) : k = 1 ∨ libraryRecords.length ≤ k := by
  have all : ∀ k : Fin libraryRecords.length, (libraryRecords.get k).superclass = none → k.1 = 1 := by
    decide
  by_cases inside : k < libraryRecords.length
  · left
    obtain ⟨more, eq⟩ := h.library
    rw [← eq, List.getElem?_append_left inside, List.getElem?_eq_getElem inside] at record
    cases record
    exact all ⟨k, inside⟩ root
  · exact Or.inr (Nat.le_of_not_lt inside)

end Hierarchy

/-! ### Class tables on record -/

/-- The link leads to an address, or nowhere. -/
def Memory.Leads (m : Memory) (link : Option ClassId) (a : Ref) : Prop :=
  match link with
  | none => a = Ref.null
  | some id => m.classRef id = .ok a

namespace Machine

/-- **The class table is on record.** -/
structure Recorded (m : Memory) (records : List ClassRecord) : Prop where
  size : m.classes.size = records.length
  small : m.classes.size ≤ wordLimit
  entry : ∀ (k : Nat) a r, m.classes[k]? = some a → records[k]? = some r →
    ∃ c cls, classView m a = .ok c ∧ receiverClass m a = .ok cls ∧ m.Leads r.superclass c.superclass ∧
      m.Leads r.metaclass c.metaclass ∧ m.Leads r.metaclass cls ∧
      (m.constants.entries.size ≤ wordLimit → className? m a = some r.name)

/-- Whether the class with an index has a name. -/
def hasName (m : Memory) (name : String) (id : ClassId) : Bool :=
  match m.classRef id with
  | .ok addr => className m addr == name
  | .error _ => false

theorem classNamed?_eq (m : Memory) (name : String) : classNamed? m name =
    ((List.range m.classes.size).find? fun k => hasName m name ⟨UInt32.ofNat k⟩).map
      fun k => ⟨UInt32.ofNat k⟩ :=
  List.find?_map ..

namespace Recorded

variable {m : Memory} {records : List ClassRecord} (recorded : Recorded m records)
include recorded

theorem record_of_entry {k : Nat} {a : Ref} (entry : m.classes[k]? = some a) :
    ∃ r, records[k]? = some r := by
  have inside := (Array.getElem?_eq_some_iff.1 entry).1
  rw [recorded.size] at inside
  exact ⟨_, List.getElem?_eq_getElem inside⟩

/-- **Chains of superclasses end**, in a class without superclass. -/
theorem chain_ends (h : Hierarchy records) {k : Nat} {a : Ref} (entry : m.classes[k]? = some a) :
    ∃ n ≤ classRank k, ancestor m a (n + 1) = Ref.null ∧ ∃ (j : Nat) (root : ClassRecord),
      records[j]? = some root ∧ root.superclass = none ∧ m.classes[j]? = some (ancestor m a n) := by
  -- on the rank and not on the index: Metaclass is older than its superclass
  induction rank : classRank k using Nat.strongRecOn generalizing k a with
  | ind n ih =>
    subst rank
    obtain ⟨r, record⟩ := recorded.record_of_entry entry
    obtain ⟨c, -, view, -, link, -⟩ := recorded.entry k a r entry record
    have up : superclassOf m a = c.superclass := by
      unfold superclassOf
      rw [view]
    cases above : r.superclass with
    | none =>
      rw [above] at link
      exact ⟨0, Nat.zero_le _, up.trans link, k, r, record, above, entry⟩
    | some id =>
      rw [above] at link
      have lower := h.above k r id record above
      have next : m.classes[id.index.toNat]? = some c.superclass := by
        have link : m.classRef id = .ok c.superclass := link
        unfold Memory.classRef at link
        split at link
        · rename_i found
          rw [found, Except.ok.inj link]
        · cases link
      obtain ⟨n, le, null, root⟩ := ih _ lower next rfl
      refine ⟨n + 1, by omega, ?_, ?_⟩
      · rw [ancestor_succ, up, null]
      · rw [ancestor_succ, up]
        exact root

theorem hasName_iff (few : m.constants.entries.size ≤ wordLimit) (name : String) {k : Nat}
    (inside : k < m.classes.size) : hasName m name ⟨UInt32.ofNat k⟩ = true ↔
      ∃ r, records[k]? = some r ∧ r.name = name := by
  have index : (UInt32.ofNat k).toNat = k :=
    UInt32.toNat_ofNat_of_lt' (Nat.lt_of_lt_of_le inside recorded.small)
  have entry := Array.getElem?_eq_getElem inside
  obtain ⟨r, record⟩ := recorded.record_of_entry entry
  obtain ⟨c, cls, -, -, -, -, -, text⟩ := recorded.entry k _ r entry record
  have found : m.classRef ⟨UInt32.ofNat k⟩ = .ok m.classes[k] := by
    unfold Memory.classRef
    dsimp only
    rw [index, entry]
  unfold hasName
  rw [found]
  dsimp only
  rw [className, text few, Option.getD_some, beq_iff_eq]
  constructor
  · intro same
    exact ⟨r, record, same⟩
  · rintro ⟨r', record', same⟩
    cases record.symm.trans record'
    exact same

/-- **The first class with a name** is found, if there is one. -/
theorem classNamed?_eq_some_iff (few : m.constants.entries.size ≤ wordLimit) (name : String)
    (id : ClassId) : classNamed? m name = some id ↔
      (∃ r, records[id.index.toNat]? = some r ∧ r.name = name) ∧
        ∀ j < id.index.toNat, ∀ r, records[j]? = some r → r.name ≠ name := by
  rw [classNamed?_eq, Option.map_eq_some_iff]
  have small := recorded.small
  constructor
  · rintro ⟨k, found, rfl⟩
    obtain ⟨here, inside, before⟩ := List.find?_range_eq_some.1 found
    have inside := List.mem_range.1 inside
    have index : (UInt32.ofNat k).toNat = k :=
      UInt32.toNat_ofNat_of_lt' (Nat.lt_of_lt_of_le inside small)
    rw [index]
    refine ⟨(recorded.hasName_iff few name inside).1 here, fun j lt r record same => ?_⟩
    have no := before j lt
    have yes := (recorded.hasName_iff few name (Nat.lt_trans lt inside)).2 ⟨r, record, same⟩
    rw [yes] at no
    cases no
  · rintro ⟨⟨r, record, same⟩, before⟩
    have inside := (List.getElem?_eq_some_iff.1 record).1
    rw [← recorded.size] at inside
    refine ⟨id.index.toNat, List.find?_range_eq_some.2 ⟨?_, List.mem_range.2 inside, ?_⟩, ?_⟩
    · exact (recorded.hasName_iff few name inside).2 ⟨r, record, same⟩
    · intro j lt
      rw [Bool.not_eq_true', Bool.eq_false_iff]
      intro yes
      obtain ⟨r', record', same'⟩ := (recorded.hasName_iff few name (Nat.lt_trans lt inside)).1 yes
      exact before j lt r' record' same'
    · rw [UInt32.ofNat_toNat]

theorem classNamed?_eq_none_iff (few : m.constants.entries.size ≤ wordLimit) (name : String) :
    classNamed? m name = none ↔ ∀ r ∈ records, r.name ≠ name := by
  rw [classNamed?_eq, Option.map_eq_none_iff, List.find?_eq_none]
  constructor
  · intro none r mem same
    obtain ⟨k, record⟩ := List.mem_iff_getElem?.1 mem
    have inside := (List.getElem?_eq_some_iff.1 record).1
    rw [← recorded.size] at inside
    exact none k (List.mem_range.2 inside)
      ((recorded.hasName_iff few name inside).2 ⟨r, record, same⟩)
  · intro none k inside yes
    obtain ⟨r, record, same⟩ := (recorded.hasName_iff few name (List.mem_range.1 inside)).1 yes
    exact none r (List.mem_of_getElem? record) same

end Recorded

/-! ### Tables of ideal memories -/

section Shown

variable {m : Memory} {A : IdealMemory} {η : Placement} (shows_ : m.Shows A η)
include shows_

theorem getElem?_classes_eq_some_iff {k : Nat} {a : Ref} :
    m.classes[k]? = some a ↔ ∃ id, A.classes[k]? = some id ∧ η id = some a := by
  have each := congrArg (·[k]?) shows_.classes
  simp only [List.getElem?_map, Array.getElem?_toList] at each
  cases here : A.classes[k]? with
  | none =>
    rw [here] at each
    have : m.classes[k]? = none := Option.map_eq_none_iff.1 each.symm
    simp [this]
  | some id =>
    rw [here] at each
    obtain ⟨r, entry, eq⟩ := Option.map_eq_some_iff.1 each.symm
    rw [entry]
    constructor
    · rintro ⟨⟩
      exact ⟨id, rfl, eq.symm⟩
    · rintro ⟨_, ⟨⟩, placed⟩
      exact eq.trans placed

theorem leads_of_classValue? {link : Option ClassId} {v : Value} {x : Word}
    (found : A.classValue? link = some v) (word : η.word? v = some x) : m.Leads link ⟨x⟩ := by
  cases link with
  | none =>
    cases found
    cases word
    rfl
  | some id =>
    rcases shows_.classRef_eq id with ⟨r, v', found', run, word'⟩ | ⟨missing, -⟩
    · cases found.symm.trans found'
      cases word.symm.trans word'
      exact run
    · cases found.symm.trans missing

/-- **A class**, read where it lies. -/
theorem classView_shown {id : Nat} {a : Ref} {name size : Word} {sup met cls methods : Value}
    (placed : η id = some a)
    (object : A.store id = ⟨cls, .fields [.raw name, sup, met, .raw size, methods]⟩) :
    ∃ x y z c, η.word? sup = some x ∧ η.word? met = some y ∧ η.word? methods = some z ∧
      η.word? cls = some c.word ∧ classView m a = .ok ⟨a, name, ⟨x⟩, ⟨y⟩, size, ⟨z⟩⟩ ∧
      receiverClass m a = .ok c := by
  obtain ⟨count, c, view, length, class_⟩ := shows_.view_object placed
  have fields := (shows_.heap.object id a placed).fields
  rw [object] at view length class_ fields
  have length : count.toNat = 5 := length
  obtain ⟨_, ⟨⟩, word₀⟩ := fields 0 _ rfl
  obtain ⟨x, value₁, word₁⟩ := fields 1 _ rfl
  obtain ⟨y, value₂, word₂⟩ := fields 2 _ rfl
  obtain ⟨_, ⟨⟩, word₃⟩ := fields 3 _ rfl
  obtain ⟨z, value₄, word₄⟩ := fields 4 _ rfl
  refine ⟨x, y, z, c, value₁, value₂, value₄, class_, ?_, ?_⟩
  · exact classView_of_words view rfl (Nat.le_of_eq length.symm)
      ⟨word₀, word₁, word₂, word₃, word₄⟩
  · rw [receiverClass, Memory.header_of_view view]
    rfl

/-- There are no more classes than addresses. -/
theorem size_classes_le (nodup : A.classes.Nodup) : m.classes.size ≤ wordLimit := by
  have distinct : (m.classes.toList.map some).Nodup := by
    rw [← shows_.classes]
    refine nodup.map_on fun id mem id' mem' same => ?_
    obtain ⟨r, -, placed⟩ := Memory.Shows.placed_of_mem shows_.classes mem
    exact shows_.injective placed (same ▸ placed)
  have words : (m.classes.toList.map fun a => a.word.toNat).Nodup := by
    refine (List.Nodup.of_map _ distinct).map ?_
    rintro ⟨x⟩ ⟨y⟩ same
    exact congrArg Ref.mk (UInt32.toNat_inj.1 same)
  have inside : (m.classes.toList.map fun a => a.word.toNat) ⊆ List.range wordLimit := by
    intro n mem
    obtain ⟨a, -, rfl⟩ := List.mem_map.1 mem
    exact List.mem_range.2 a.word.toNat_lt
  have := (words.subperm inside).length_le
  rwa [List.length_map, Array.length_toList, List.length_range] at this

theorem recorded_of_describes {records : List ClassRecord} (described : A.Describes records) :
    Recorded m records where
  size := by
    have := congrArg List.length shows_.classes
    rw [List.length_map, List.length_map, Array.length_toList, described.length] at this
    exact this.symm
  small := size_classes_le shows_ described.nodup
  entry k a r entry record := by
    obtain ⟨id, position, placed⟩ := (getElem?_classes_eq_some_iff shows_).1 entry
    obtain ⟨name, sup, met, size, methods, hsup, hmet, object, text⟩ :=
      described.recorded k id r position record
    obtain ⟨x, y, z, c, atSup, atMet, -, atCls, view, class_⟩ := classView_shown shows_ placed object
    refine ⟨_, c, view, class_, leads_of_classValue? shows_ hsup atSup,
      leads_of_classValue? shows_ hmet atMet, leads_of_classValue? shows_ hmet atCls, fun few => ?_⟩
    refine className?_of_classView view ?_
    rw [shows_.constants] at few
    unfold Memory.constantAt ConstantPool.get
    rw [shows_.constants, text few]

end Shown

/-! ### Tables elsewhere -/

/-- **The same classes elsewhere.**  Each entry of the class table is where `move` says, with the
    same name and size and with its references moved as well. -/
structure ClassesMoved (move : Ref → Ref) (m m' : Memory) : Prop where
  null : move Ref.null = Ref.null
  injective : ∀ a ∈ m.classes, ∀ b ∈ m.classes, move a = move b → a = b
  table : m'.classes = m.classes.map move
  entry : ∀ a ∈ m.classes, ∃ c cls, classView m a = .ok c ∧ receiverClass m a = .ok cls ∧
    classView m' (move a) = .ok ⟨move a, c.name, move c.superclass, move c.metaclass, c.objectSize,
      move c.methods⟩ ∧ receiverClass m' (move a) = .ok (move cls)

open Classical in
/-- Where an object has gone that was at an address. -/
noncomputable def relocation (η η' : Placement) (a : Ref) : Ref :=
  if h : ∃ b id, η id = some a ∧ η' id = some b then h.choose else a

section Moved

variable {m m' : Memory} {A A' : IdealMemory} {η η' : Placement} (shows_ : m.Shows A η)
include shows_

theorem relocation_eq {id : Nat} {a b : Ref} (before : η id = some a) (after : η' id = some b) :
    relocation η η' a = b := by
  have moved : ∃ b id, η id = some a ∧ η' id = some b := ⟨b, id, before, after⟩
  unfold relocation
  rw [dif_pos moved]
  obtain ⟨id', before', after'⟩ := moved.choose_spec
  obtain rfl := shows_.injective before before'
  exact Option.some.inj (after'.symm.trans after)

theorem relocation_null (η' : Placement) : relocation η η' Ref.null = Ref.null := by
  refine dif_neg ?_
  rintro ⟨b, id, placed, -⟩
  obtain ⟨_, _, view, -⟩ := shows_.view_object placed
  rw [view_null] at view
  cases view

/-- The word of an entry of a table, or of none. -/
theorem relocation_word {table : List Nat} {v : Value} {x y : Word} (entry : Entry table v)
    (before : η.word? v = some x) (after : η'.word? v = some y) : relocation η η' ⟨x⟩ = ⟨y⟩ := by
  rcases entry with rfl | ⟨id, -, rfl⟩
  · cases before
    cases after
    exact relocation_null shows_ η'
  · exact relocation_eq shows_ (Placement.word?_object_eq_some before)
      (Placement.word?_object_eq_some after)

theorem classesMoved {harmless : Word → Prop} (shows' : m'.Shows A' η') (valid : A.Valid harmless)
    (same : A.SameClasses A') : ClassesMoved (relocation η η') m m' := by
  have placed : ∀ id ∈ A.classes, ∃ a b, η id = some a ∧ η' id = some b ∧ relocation η η' a = b := by
    intro id mem
    obtain ⟨a, -, before⟩ := Memory.Shows.placed_of_mem shows_.classes mem
    obtain ⟨b, -, after⟩ := Memory.Shows.placed_of_mem shows'.classes (same.classes ▸ mem)
    exact ⟨a, b, before, after, relocation_eq shows_ before after⟩
  have named : ∀ a ∈ m.classes, ∃ id ∈ A.classes, η id = some a ∧
      η' id = some (relocation η η' a) := by
    intro a mem
    obtain ⟨id, registered, before⟩ :=
      Memory.Shows.named_of_mem shows_.classes (Array.mem_toList_iff.2 mem)
    obtain ⟨a', b, before', after, rfl⟩ := placed id registered
    cases before.symm.trans before'
    exact ⟨id, registered, before, after⟩
  refine ⟨relocation_null shows_ η', ?_, ?_, ?_⟩
  · intro a mem b mem' eq
    obtain ⟨id, -, before, after⟩ := named a mem
    obtain ⟨id', -, before', after'⟩ := named b mem'
    rw [eq] at after
    obtain rfl := shows'.injective after after'
    exact Option.some.inj (before.symm.trans before')
  · apply Array.toList_inj.1
    apply (List.map_injective_iff.2 (Option.some_injective _))
    calc m'.classes.toList.map some
        = A.classes.map η' := by rw [← shows'.classes, same.classes]
      _ = A.classes.map fun id => (η id).map (relocation η η') := by
          refine List.map_congr_left fun id mem => ?_
          obtain ⟨a, b, before, after, eq⟩ := placed id mem
          rw [before, after, ← eq]
          rfl
      _ = (A.classes.map η).map (Option.map (relocation η η')) := by rw [List.map_map]; rfl
      _ = ((m.classes.map (relocation η η')).toList).map some := by
          rw [shows_.classes, Array.toList_map, List.map_map, List.map_map]
          rfl
  · intro a mem
    obtain ⟨id, registered, before, after⟩ := named a mem
    obtain ⟨name, sup, met, size, methods, content, hsup, hmet, hmethods⟩ :=
      valid.class_layout id registered
    have hcls := valid.cls id (valid.classes_lt id registered)
    have object : A.store id =
        ⟨(A.store id).cls, .fields [.raw name, sup, met, .raw size, methods]⟩ := by rw [← content]
    obtain ⟨x, y, z, c, atSup, atMet, atMethods, atCls, view, class_⟩ :=
      classView_shown shows_ before object
    obtain ⟨x', y', z', c', atSup', atMet', atMethods', atCls', view', class'⟩ :=
      classView_shown shows' after ((same.store id registered).trans object)
    refine ⟨_, _, view, class_, ?_, ?_⟩
    · dsimp only
      rw [view', relocation_word shows_ hsup atSup atSup', relocation_word shows_ hmet atMet atMet',
        relocation_word shows_ hmethods atMethods atMethods']
    · rw [class', relocation_word shows_ hcls atCls atCls']

end Moved

end Machine

end ObjectMachine
