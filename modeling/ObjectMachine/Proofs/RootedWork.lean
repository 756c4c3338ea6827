/-
  ObjectMachine/Proofs/RootedWork.lean
  ====================================
  **Work under way** — an operation that makes one object after another.

  Each object that is made may move all that have been made before, and everything else.
  `Working` keeps account: what was there at the start is carried along, and the objects made
  since are listed with what they hold.  Room can be made at any time as long as the roots lead
  to all of them, which is why an operation keeps on the stack what it is working on.
-/
import ObjectMachine.Proofs.NewObjects

namespace ObjectMachine

open ObjectGraph

namespace Memory

/-- An object that has been made: where it is, which class it belongs to and what it holds. -/
structure Item where
  ref : Ref
  classId : Option ClassId
  content : Content

/-- The object after objects have moved. -/
def Item.moved (f : Ref → Ref) (i : Item) : Item := ⟨f i.ref, i.classId, i.content.map f⟩

/-- The memory has an object: an instance of the class, where that is now. -/
def Has (m : Memory) (i : Item) : Prop :=
  ∃ c, m.classOrNull i.classId = .ok c ∧ m.Holds i.ref c i.content

/-- **Work under way.**  Everything that `start` could reach is still there, moved as `φ` says, and
    besides that there are the objects that have been made since, which are apart from the old
    ones and from each other. -/
structure Working (start : Memory) (old : Set Ref) (bases : List Nat) (m : Memory)
    (objects : Set Ref) (φ : Ref → Ref) (items : List Item) : Prop where
  carries : start.Carries m old bases φ
  wf : m.WellFormed objects
  program : m.program = start.program
  held : ∀ a, (start.graph old).Reachable a → φ a ∈ objects
  has : ∀ i ∈ items, m.Has i
  made : ∀ i ∈ items, i.ref ∈ objects
  ordinary : ∀ i ∈ items, m.rootSlots.shapeOf i.ref = .ordinary
  nodup : (items.map Item.ref).Nodup
  fresh : ∀ a, (start.graph old).Reachable a → ∀ i ∈ items, φ a ≠ i.ref

variable {start m m' : Memory} {old objects : Set Ref} {bases inner : List Nat} {φ ψ : Ref → Ref}
  {items : List Item} {r c : Ref} {content : Content}

/-- At first nothing has been made. -/
theorem WellFormed.working (wf : start.WellFormed old) : Working start old bases start old id [] where
  carries := wf.carries_self
  wf := wf
  program := rfl
  held _ reach := reach.object
  has := nofun
  made := nofun
  ordinary := nofun
  nodup := List.nodup_nil
  fresh := nofun

theorem classOrNull_mem {classId : Option ClassId} (known : m.classOrNull classId = .ok c) :
    c = Ref.null ∨ c ∈ m.classes.toList := by
  cases classId with
  | none =>
    cases known
    exact Or.inl rfl
  | some id =>
    change m.classRef id = .ok c at known
    unfold classRef at known
    split at known
    · rename_i found
      cases known
      rw [← Array.getElem?_toList] at found
      exact Or.inr (List.mem_of_getElem? found)
    · cases known

theorem classOrNull_congr (same : m'.classes = m.classes) (classId : Option ClassId) :
    m'.classOrNull classId = m.classOrNull classId := by
  unfold classOrNull classRef
  rw [same]

/-- What a reachable object refers to is reachable. -/
theorem WellFormed.reachable_element {a : Ref} {elements : List Ref} (object : r ∈ objects)
    (reach : (m.graph objects).Reachable a) (ordinary : m.rootSlots.shapeOf a = .ordinary)
    (holds : m.Holds a c (.refs elements)) (mem : r ∈ elements) : (m.graph objects).Reachable r := by
  obtain ⟨i, inside, rfl⟩ := List.mem_iff_getElem.1 mem
  obtain ⟨size, read, length⟩ := holds.shows_.read?
  have count : size.toNat = elements.length := length.trans (List.length_map _)
  have found : (m.graph objects).header? a = some ⟨.pointers, size, .normal c⟩ := read
  have field : (Content.refs elements).values[i]? = some (.raw elements[i].word) := by
    change (elements.map fun r => Value.raw r.word)[i]? = _
    rw [List.getElem?_map, List.getElem?_eq_getElem inside]
    rfl
  obtain ⟨w, value, word⟩ := holds.shows_.fields i _ field
  cases value
  refine @Reachable.slot _ a _ (11 + i * 4, .ordinary) reach ?_ word object
  rw [slots_eq found, show (m.graph objects).roots.shapeOf a = .ordinary from ordinary]
  refine List.mem_cons_of_mem _ (List.mem_map.2 ⟨i, List.mem_range.2 ?_, rfl⟩)
  change i < size.toNat
  rw [count]
  exact inside

/-- A memory stays in order when its stack changes, if the words are. -/
theorem WellFormed.withStack (wf : m.WellFormed objects) {s : FrameStack}
    (roots : ∀ a ∈ s.liveWords, a ∈ objects ∨ Stray addressGuard m.space.bytes.size a) :
    ({ m with stack := s } : Memory).WellFormed objects where
  sound := wf.sound
  graph := { wf.graph with
    root := by
      intro a mem
      rcases List.mem_append.1 mem with table | live
      · exact wf.graph.root a (List.mem_append_left _ table)
      · exact roots a live }

/-- A write inside an object leaves the others alone. -/
theorem WellFormed.same_overwrite (wf : m.WellFormed objects) {a d : Ref} (object : a ∈ objects)
    (other : d ∈ objects) (ne : d ≠ a) {p : Nat} {xs : List UInt8} (low : a.offset 0 ≤ p)
    (high : p + xs.length ≤ a.offset ((m.graph objects).extent a)) :
    Bytes.Same (m.space.bytes.overwrite p xs) (d.offset 0) m.space.bytes (d.offset 0)
      ((m.graph objects).extent d) := by
  have top : a.offset ((m.graph objects).extent a) ≤ m.space.top := wf.graph.high a object
  have apart := wf.graph.apart a object d other ne.symm
  have stop : d.offset ((m.graph objects).extent d) = d.offset 0 + (m.graph objects).extent d := rfl
  refine Bytes.same_overwrite _ _ _ _ _ (high.trans (top.trans wf.fits)) ?_
  omega

section SetField

variable {a v : Ref} {elements : List Ref} {k : Nat} (wf : m.WellFormed objects) (object : a ∈ objects)
  (holds : m.Holds a c (.refs elements)) (inside : k < elements.length)

include wf object holds inside in
/-- Setting a field leaves the other objects alone. -/
theorem WellFormed.same_setField {d : Ref} (other : d ∈ objects) (ne : d ≠ a) :
    Bytes.Same (Object.setField m.space.bytes a k v.word) (d.offset 0) m.space.bytes (d.offset 0)
      ((m.graph objects).extent d) := by
  have extent : (m.graph objects).extent a = 11 + elements.length * 4 :=
    (extent_of_shows (show (m.graph objects).bytes.Shows a c (.refs elements) from holds.shows_)).trans
      (Content.extent_refs elements)
  have four := Word.length_bytes v.word
  have place : fieldOffset a k = a.offset 0 + (11 + k * 4) := rfl
  have stop : a.offset ((m.graph objects).extent a) = a.offset 0 + (m.graph objects).extent a := rfl
  exact wf.same_overwrite object other ne (by omega) (by omega)

include wf holds inside in
theorem Holds.shows_setField :
    (Object.setField m.space.bytes a k v.word).Shows a c (.refs (elements.set k v)) := by
  have index : k < (elements.map fun r => Value.raw r.word).length := by
    rw [List.length_map]
    exact inside
  have stored := ShowsObject.setField holds.shows_ (holds.high.trans wf.fits) rfl index
    (Placement.word?_raw _ v.word)
  rw [← List.map_set] at stored
  exact stored

include wf holds inside in
/-- The object has the field set. -/
theorem Holds.setField :
    ({ m with space := m.space.mapBytes (Object.setField · a k v.word) } : Memory).Holds a c
      (.refs (elements.set k v)) := by
  refine ⟨holds.low, ?_, holds.shows_setField wf inside⟩
  change a.offset (Content.refs (elements.set k v)).extent ≤ m.space.top
  rw [Content.extent_refs, List.length_set, ← Content.extent_refs]
  exact holds.high

include wf object holds inside in
/-- The other objects are as they were. -/
theorem WellFormed.holds_setField {d e : Ref} {content : Content} (kept : m.Holds d e content)
    (other : d ∈ objects) (ne : d ≠ a) :
    ({ m with space := m.space.mapBytes (Object.setField · a k v.word) } : Memory).Holds d e content := by
  refine ⟨kept.low, kept.high, ShowsObject.congr kept.shows_ ?_⟩
  have same := @WellFormed.same_setField _ _ _ _ v _ _ wf object holds inside d other ne
  rw [extent_of_shows (show (m.graph objects).bytes.Shows d e content from kept.shows_)] at same
  exact same

include wf object holds inside in
/-- **A memory stays in order when a field is set** to an object, or to what is no address. -/
theorem WellFormed.setField (ordinary : m.rootSlots.shapeOf a = .ordinary)
    (value : v ∈ objects ∨ Stray addressGuard m.space.bytes.size v) :
    ({ m with space := m.space.mapBytes (Object.setField · a k v.word) } : Memory).WellFormed objects := by
  have size : (Object.setField m.space.bytes a k v.word).size = m.space.bytes.size :=
    Bytes.size_overwrite _ _ _
  have high : a.offset (Content.refs elements).extent ≤ m.space.bytes.size := holds.high.trans wf.fits
  have others := fun d => @WellFormed.same_setField _ _ _ _ v _ _ wf object holds inside d
  have fits : fieldOffset a k + v.word.bytes.length ≤ a.offset (Content.refs elements).extent := by
    rw [Word.length_bytes, Content.extent_refs]
    change a.offset 0 + (11 + k * 4) + 4 ≤ a.offset 0 + (11 + elements.length * 4)
    omega
  have own : Header.read? (Object.setField m.space.bytes a k v.word) a = Header.read? m.space.bytes a :=
    ShowsObject.header_overwrite holds.shows_ high (Nat.add_le_add_left (Nat.le_add_right 11 _) _) fits
  obtain ⟨size', read, length⟩ := holds.shows_.read?
  have found : (m.graph objects).header? a = some ⟨.pointers, size', .normal c⟩ := read
  refine ⟨SemiSpaces.Sound.mapBytes (f := (Object.setField · a k v.word)) wf.sound size, ?_⟩
  change ObjectGraph.WellFormed _ _ (Object.setField m.space.bytes a k v.word).size
  rw [size]
  refine wf.graph.update rfl rfl wf.sound.start_le_top (Nat.le_refl _) wf.graph.le_hi ?header ?slot
    (fun _ mem => mem) (fun d mem new => absurd mem new) (fun d mem new => absurd mem new)
  case header =>
    intro d other
    by_cases ne : d = a
    · subst ne
      exact own
    · obtain ⟨kind, _, e, found⟩ := wf.graph.header other
      have nonnull := ne_null_of_header? found
      exact Header.read?_congr (others d other ne) (wf.graph.header_le_extent other) nonnull nonnull
  case slot =>
    intro d other slot mem w word
    by_cases ne : d = a
    · subst ne
      have listed := mem
      rw [slots_eq found, show (m.graph objects).roots.shapeOf d = .ordinary from ordinary] at listed
      rcases List.mem_cons.1 listed with rfl | listed
      · have class_word := ((Header.read?_eq_some_iff _ _ _).1 (own.trans read)).2.2.2.2.2
        cases class_word.symm.trans word
        exact wf.graph.slot d object _ mem _ (word?_class found).2
      · obtain ⟨i, -, rfl⟩ := List.mem_map.1 listed
        by_cases here : i = k
        · subst here
          have stored : (Object.setField m.space.bytes d i v.word).word? (fieldOffset d i) =
            some v.word := Bytes.word?_overwrite_self _ _ _ (fits.trans high)
          cases stored.symm.trans word
          exact value
        · have kept : (Object.setField m.space.bytes d k v.word).word? (fieldOffset d i) =
              m.space.bytes.word? (fieldOffset d i) := by
            refine Bytes.word?_overwrite_of_apart _ _ _ _ (fits.trans high) ?_
            rw [Word.length_bytes]
            change d.offset 0 + (11 + i * 4) + 4 ≤ d.offset 0 + (11 + k * 4) ∨
              d.offset 0 + (11 + k * 4) + 4 ≤ d.offset 0 + (11 + i * 4)
            omega
          exact wf.graph.slot d object _ mem w (kept.symm.trans word)
    · have same := (others d other ne).word? slot.1 (wf.graph.slot_inside other mem)
      exact wf.graph.slot d other slot mem w (same.symm.trans word)

end SetField

namespace Working

variable (work : Working start old bases m objects φ items)
include work

/-- **Room is made.**  If the roots lead to everything that has been made, it moves along. -/
theorem copied (wf₀ : start.WellFormed old) (nested₀ : start.stack.Nested bases)
    (nested : m.stack.Nested (inner ++ bases)) (le : start.stack.sp ≤ m.stack.sp)
    (above : ∀ base ∈ inner, start.stack.sp ≤ base)
    (reach : ∀ i ∈ items, (m.graph objects).Reachable i.ref) (copied : m.CopiedTo m' objects ψ)
    (program : m'.program = m.program) :
    Working start old bases m' (ψ '' {a | (m.graph objects).Reachable a}) (ψ ∘ φ)
      (items.map (Item.moved ((m.graph objects).follow ψ))) := by
  have carries := work.carries.copied nested₀ wf₀ work.wf work.held nested le above copied
  have whole := nested.whole
  have copy := copied.copyOf_graph whole
  have wf := copied.wellFormed work.wf whole
  have old_reach : ∀ a, (start.graph old).Reachable a → (m.graph objects).Reachable (φ a) := by
    intro a reach
    exact work.carries.reachable nested₀ wf₀ work.held nested le above reach
  have place : ∀ i ∈ items, (m.graph objects).follow ψ i.ref = ψ i.ref :=
    fun i mem => follow_of_mem (work.made i mem)
  refine
    { carries := carries
      wf := wf
      program := program.trans work.program
      held := fun a reach => ⟨φ a, old_reach a reach, rfl⟩
      has := ?has
      made := ?made
      ordinary := ?ordinary
      nodup := ?nodup
      fresh := ?fresh }
  case has =>
    intro j mem
    obtain ⟨i, listed, rfl⟩ := List.mem_map.1 mem
    obtain ⟨c, known, holds⟩ := work.has i listed
    refine ⟨(m.graph objects).follow ψ c, ?_, ?_⟩
    · change m'.classOrNull i.classId = _
      rw [copied.classOrNull_eq work.wf, known]
      rfl
    · have shows_ := copy.shows (reach i listed) (work.ordinary i listed) holds.shows_
      obtain ⟨low, high⟩ := copy.inside i.ref (reach i listed)
      rw [extent_of_shows (show (m.graph objects).bytes.Shows i.ref c i.content from holds.shows_)] at high
      unfold Item.moved
      rw [place i listed]
      refine ⟨low, ?_, shows_⟩
      rw [Content.extent_map]
      exact high
  case made =>
    intro j mem
    obtain ⟨i, listed, rfl⟩ := List.mem_map.1 mem
    exact ⟨i.ref, reach i listed, (place i listed).symm⟩
  case ordinary =>
    intro j mem
    obtain ⟨i, listed, rfl⟩ := List.mem_map.1 mem
    refine Eq.trans ?_ (work.ordinary i listed)
    unfold Item.moved
    rw [place i listed]
    exact copy.shapeOf_eq work.wf.graph (reach i listed) wf.graph.lo_le (copied.size ▸ wf.graph.le_hi)
  case nodup =>
    have refs : (items.map (Item.moved ((m.graph objects).follow ψ))).map Item.ref =
        (items.map Item.ref).map ((m.graph objects).follow ψ) := by
      rw [List.map_map, List.map_map]
      rfl
    rw [refs]
    refine work.nodup.map_on ?_
    intro a mem d mem' eq
    obtain ⟨i, listed, rfl⟩ := List.mem_map.1 mem
    obtain ⟨j, listed', rfl⟩ := List.mem_map.1 mem'
    rw [place i listed, place j listed'] at eq
    exact copy.injective (reach i listed) (reach j listed') eq
  case fresh =>
    intro a live j mem eq
    obtain ⟨i, listed, rfl⟩ := List.mem_map.1 mem
    refine work.fresh a live i listed (copy.injective (old_reach a live) (reach i listed) ?_)
    rw [← place i listed]
    exact eq

/-- **One more object.** -/
theorem adds (wf₀ : start.WellFormed old) {classId : Option ClassId}
    (known : m.classOrNull classId = .ok c) (added : m.Adds m' r c content)
    (fields : ∀ w, Value.raw w ∈ content.values →
      (⟨w⟩ : Ref) ∈ objects ∨ Stray addressGuard m.space.bytes.size ⟨w⟩) :
    Working start old bases m' (insert r objects) φ (items ++ [⟨r, classId, content⟩]) := by
  have new := added.not_mem work.wf
  have below : ∀ a, (start.graph old).Reachable a → Bytes.Same m'.space.bytes ((φ a).offset 0)
      m.space.bytes ((φ a).offset 0) ((start.graph old).extent a) :=
    fun a reach => added.same _ _ (work.carries.copy.inside a reach).2
  refine
    { carries := ?carries
      wf := added.wellFormed work.wf (classOrNull_mem known) fields
      program := added.program.trans work.program
      held := fun a reach => Set.mem_insert_of_mem r (work.held a reach)
      has := ?has
      made := ?made
      ordinary := ?ordinary
      nodup := ?nodup
      fresh := ?fresh }
  case carries =>
    refine work.carries.of_same wf₀ added.sound added.start ?_ added.size added.classes
      added.dictionaries ?_ below
    · rw [added.top]
      exact Nat.le_add_right _ _
    · rw [added.stack]
      exact work.carries.stack
  case has =>
    intro i mem
    rcases List.mem_append.1 mem with listed | last
    · obtain ⟨d, found, holds⟩ := work.has i listed
      exact ⟨d, (classOrNull_congr added.classes _).trans found, added.holds_below holds⟩
    · obtain rfl := List.mem_singleton.1 last
      exact ⟨c, (classOrNull_congr added.classes _).trans known,
        added.holds work.wf.sound.start_le_top⟩
  case made =>
    intro i mem
    rcases List.mem_append.1 mem with listed | last
    · exact Set.mem_insert_of_mem r (work.made i listed)
    · obtain rfl := List.mem_singleton.1 last
      exact Set.mem_insert r objects
  case ordinary =>
    intro i mem
    rcases List.mem_append.1 mem with listed | last
    · rw [added.rootSlots_eq]
      exact work.ordinary i listed
    · obtain rfl := List.mem_singleton.1 last
      exact added.shapeOf_eq work.wf
  case nodup =>
    rw [List.map_append, List.map_singleton, List.nodup_append]
    refine ⟨work.nodup, List.nodup_singleton _, ?_⟩
    rintro a mem d last rfl
    obtain ⟨i, listed, rfl⟩ := List.mem_map.1 mem
    have same : i.ref = r := List.mem_singleton.1 last
    exact new (same ▸ work.made i listed)
  case fresh =>
    intro a reach i mem eq
    rcases List.mem_append.1 mem with listed | last
    · exact work.fresh a reach i listed eq
    · obtain rfl := List.mem_singleton.1 last
      have same : φ a = r := eq
      exact new (same ▸ work.held a reach)

/-- **A field is set** in one of the objects that have been made. -/
theorem setField (wf₀ : start.WellFormed old) {a v : Ref} {classId : Option ClassId}
    {elements : List Ref} {rest : List Item} (first : items = ⟨a, classId, .refs elements⟩ :: rest)
    {k : Nat} (inside : k < elements.length)
    (value : v ∈ objects ∨ Stray addressGuard m.space.bytes.size v) :
    Working start old bases { m with space := m.space.mapBytes (Object.setField · a k v.word) } objects φ
      (⟨a, classId, .refs (elements.set k v)⟩ :: rest) := by
  subst first
  obtain ⟨c, known, holds⟩ := work.has _ List.mem_cons_self
  have object : a ∈ objects := work.made _ List.mem_cons_self
  have ordinary : m.rootSlots.shapeOf a = .ordinary := work.ordinary _ List.mem_cons_self
  have apart : ∀ d, (start.graph old).Reachable d → φ d ≠ a :=
    fun d reach => work.fresh d reach _ List.mem_cons_self
  have wf' := work.wf.setField object holds inside ordinary value
  have others := fun d => @WellFormed.same_setField _ _ _ _ v _ _ work.wf object holds inside d
  obtain ⟨new, -⟩ := List.nodup_cons.1 work.nodup
  refine
    { carries := ?carries
      wf := wf'
      program := work.program
      held := work.held
      has := ?has
      made := ?made
      ordinary := ?ordinary
      nodup := work.nodup
      fresh := ?fresh }
  case carries =>
    refine work.carries.of_same wf₀ wf'.sound rfl (Nat.le_refl _) (Bytes.size_overwrite _ _ _) rfl rfl
      work.carries.stack ?_
    intro d reach
    rw [← work.carries.copy.extent_eq wf₀.graph reach]
    exact others (φ d) (work.held d reach) (apart d reach)
  case has =>
    intro i mem
    rcases List.mem_cons.1 mem with rfl | listed
    · exact ⟨c, (classOrNull_congr rfl _).trans known, holds.setField work.wf inside⟩
    · obtain ⟨d, found, other⟩ := work.has i (List.mem_cons_of_mem _ listed)
      refine ⟨d, (classOrNull_congr rfl _).trans found, ?_⟩
      refine work.wf.holds_setField object holds inside other
        (work.made i (List.mem_cons_of_mem _ listed)) ?_
      rintro rfl
      exact new (List.mem_map.2 ⟨i, listed, rfl⟩)
  case made =>
    intro i mem
    rcases List.mem_cons.1 mem with rfl | listed
    · exact object
    · exact work.made i (List.mem_cons_of_mem _ listed)
  case ordinary =>
    intro i mem
    rcases List.mem_cons.1 mem with rfl | listed
    · exact ordinary
    · exact work.ordinary i (List.mem_cons_of_mem _ listed)
  case fresh =>
    intro d reach i mem
    rcases List.mem_cons.1 mem with rfl | listed
    · exact apart d reach
    · exact work.fresh d reach i (List.mem_cons_of_mem _ listed)

/-- **Something else on the stack**, above what was there at the start. -/
theorem withStack {s : FrameStack}
    (carries : start.stack.Carries s bases ((start.graph old).follow φ))
    (roots : ∀ a ∈ s.liveWords, a ∈ objects ∨ Stray addressGuard m.space.bytes.size a) :
    Working start old bases { m with stack := s } objects φ items where
  carries := { work.carries with stack := carries }
  wf := work.wf.withStack roots
  program := work.program
  held := work.held
  has i listed := by
    obtain ⟨c, found, holds⟩ := work.has i listed
    exact ⟨c, (classOrNull_congr rfl _).trans found, ⟨holds.low, holds.high, holds.shows_⟩⟩
  made := work.made
  ordinary := work.ordinary
  nodup := work.nodup
  fresh := work.fresh

end Working

end Memory

end ObjectMachine
