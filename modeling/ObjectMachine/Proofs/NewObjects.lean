/-
  ObjectMachine/Proofs/NewObjects.lean
  ====================================
  **New objects in a memory that is in order** — what making a String, an Integer or an Array
  does to any well-formed memory.

  There are two steps.  First room is made, which may move everything: `CopiedTo` says how.
  Then the object is put behind all others: `Adds`.  Its class is the one that the class table
  has at that time.
-/
import ObjectMachine.Proofs.CarriedMemory
import ObjectMachine.Proofs.Lockstep

namespace ObjectMachine

open ObjectGraph

/-! ### What objects hold -/

/-- What a word becomes when objects move. -/
def Value.map (f : Ref → Ref) : Value → Value
  | .raw w => .raw (f ⟨w⟩).word
  | .object id => .object id

/-- What an object holds after objects have moved. -/
def Content.map (f : Ref → Ref) : Content → Content
  | .fields values => .fields (values.map (Value.map f))
  | .bytes xs => .bytes xs

/-- Fields that hold references. -/
def Content.refs (elements : List Ref) : Content := .fields (elements.map fun r => .raw r.word)

@[simp] theorem Content.kind_map (f : Ref → Ref) (content : Content) :
    (content.map f).kind = content.kind := by
  cases content <;> rfl

@[simp] theorem Content.length_map (f : Ref → Ref) (content : Content) :
    (content.map f).length = content.length := by
  cases content with
  | bytes xs => rfl
  | fields values => exact List.length_map _

@[simp] theorem Content.extent_map (f : Ref → Ref) (content : Content) :
    (content.map f).extent = content.extent := by
  cases content with
  | bytes xs => rfl
  | fields values => exact congrArg (11 + · * 4) (List.length_map _)

theorem Content.map_refs (f : Ref → Ref) (elements : List Ref) :
    (Content.refs elements).map f = .refs (elements.map f) := by
  change Content.fields ((elements.map fun r => Value.raw r.word).map (Value.map f)) =
    .fields ((elements.map f).map fun r => .raw r.word)
  rw [List.map_map, List.map_map]
  rfl

theorem Content.extent_refs (elements : List Ref) :
    (Content.refs elements).extent = 11 + elements.length * 4 :=
  congrArg (11 + · * 4) (List.length_map _)

theorem Content.blank_pointers (size : Word) :
    Content.blank .pointers size = .refs (List.replicate size.toNat Ref.null) := by
  unfold Content.blank Content.refs
  rw [List.map_replicate]

/-- The object at an address, its words as they are. -/
def Bytes.Shows (b : Bytes) (r c : Ref) (content : Content) : Prop :=
  ShowsObject b (fun _ => none) r ⟨.raw c.word, content⟩

theorem Bytes.Shows.read? {b : Bytes} {r c : Ref} {content : Content} (shows_ : b.Shows r c content) :
    ∃ size : Word, Header.read? b r = some ⟨content.kind, size, .normal c⟩ ∧
      size.toNat = content.length := by
  obtain ⟨size, c', read, length, cls⟩ := shows_.header
  cases c
  cases c'
  cases cls
  exact ⟨size, read, length⟩

theorem ObjectGraph.extent_of_shows {g : ObjectGraph} {r c : Ref} {content : Content}
    (shows_ : g.bytes.Shows r c content) : g.extent r = content.extent := by
  obtain ⟨size, read, length⟩ := shows_.read?
  rw [ObjectGraph.extent_eq (show g.header? r = _ from read), Header.objectBytes,
    content.objectBytes_eq length]

/-- **A copy holds what its original holds**, with the references moved. -/
theorem ObjectGraph.CopyOf.shows {g g' : ObjectGraph} {φ : Ref → Ref} (copy : g.CopyOf g' φ)
    {a c : Ref} {content : Content} (reach : g.Reachable a)
    (ordinary : g.roots.shapeOf a = .ordinary) (shows_ : g.bytes.Shows a c content) :
    g'.bytes.Shows (φ a) (g.follow φ c) (content.map (g.follow φ)) := by
  obtain ⟨size, read, length⟩ := shows_.read?
  have found : g.header? a = some ⟨content.kind, size, .normal c⟩ := read
  have slots := ObjectGraph.slots_eq found
  rw [ordinary] at slots
  refine ⟨⟨size, g.follow φ c, ?_, ?_, rfl⟩, ?fields, ?payload⟩
  · dsimp only
    rw [Content.kind_map]
    exact copy.header a reach _ size c found
  · dsimp only
    rw [Content.length_map]
    exact length
  case fields =>
    intro i v field
    cases content with
    | bytes xs => cases field
    | fields values =>
      have field : (values.map (Value.map (g.follow φ)))[i]? = some v := field
      rw [List.getElem?_map] at field
      obtain ⟨u, entry, rfl⟩ := Option.map_eq_some_iff.1 field
      obtain ⟨w, value, word⟩ := shows_.fields i u entry
      cases u with
      | object id => cases value
      | raw w' =>
        cases value
        have inside : i < size.toNat := by
          rw [length]
          exact (List.getElem?_eq_some_iff.1 entry).1
        have slot : (11 + i * 4, Shape.ordinary) ∈ g.slots a := by
          rw [slots]
          refine List.mem_cons_of_mem _ (List.mem_map.2 ⟨i, List.mem_range.2 inside, rfl⟩)
        exact ⟨_, rfl, copy.slot a reach _ slot ⟨w⟩ word⟩
  case payload =>
    intro xs eq i lt
    cases content with
    | fields values => cases eq
    | bytes ys =>
      obtain rfl : ys = xs := Content.bytes.inj eq
      refine Eq.trans ?_ (shows_.payload ys rfl i lt)
      refine copy.raw a reach (11 + i) ?_ ?_
      · rw [extent_of_shows shows_]
        exact Nat.add_lt_add_left lt 11
      · intro slot mem
        rw [slots] at mem
        cases List.mem_singleton.1 mem
        simp only [Header.classOffset]
        omega

namespace Memory

variable {m m' m'' : Memory} {objects : Set Ref} {φ : Ref → Ref} {r c : Ref} {content : Content}

/-- **An object in the memory**: its class and what it holds. -/
structure Holds (m : Memory) (r c : Ref) (content : Content) : Prop where
  low : m.space.activeStart ≤ r.offset 0
  high : r.offset content.extent ≤ m.space.top
  shows_ : m.space.bytes.Shows r c content

theorem Holds.view (holds : m.Holds r c content) (sound : m.space.Sound) :
    m.view r = .ok ⟨m.space.bytes, r, ⟨content.kind, UInt32.ofNat content.length, .normal c⟩⟩ := by
  obtain ⟨size, read, length⟩ := holds.shows_.read?
  have long := content.header_le_extent
  have high := holds.high
  have fits := sound.top_le_end.trans sound.end_le_size
  have stop : r.offset content.extent = r.offset 0 + content.extent := rfl
  have at11 : r.offset 11 = r.offset 0 + 11 := rfl
  rw [← length, UInt32.ofNat_toNat]
  refine view_of_read read holds.low (by omega) ?_
  rw [Header.objectBytes, content.objectBytes_eq length]
  omega

theorem Holds.header (holds : m.Holds r c content) (sound : m.space.Sound) :
    m.header r = .ok ⟨content.kind, UInt32.ofNat content.length, .normal c⟩ :=
  header_of_view (holds.view sound)

/-- Null is no address. -/
theorem stray_null (sound : m.space.Sound) : Stray addressGuard m.space.bytes.size Ref.null := by
  have addressable := sound.addressable
  have null : Ref.null.offset 0 = wordLimit - 1 := rfl
  unfold Stray
  omega

/-- Where a root leads to an object that can be looked at, it is one of the graph. -/
theorem WellFormed.object_of_view {v : ObjectView} (wf : m.WellFormed objects)
    (root : r ∈ m.rootSlots.all) (view : m.view r = .ok v) : r ∈ objects := by
  refine (wf.graph.root r root).resolve_right fun stray => ?_
  rw [Memory.view_stray wf.sound stray] at view
  cases view

/-- A String holds what is read from it. -/
theorem WellFormed.holds_string {text : List UInt8} (wf : m.WellFormed objects) (object : r ∈ objects)
    (string : Machine.stringValue m r = .ok text) : ∃ c, m.Holds r c (.bytes text) := by
  obtain ⟨kind, size, c, found, view⟩ := wf.view object
  have high : r.offset ((m.graph objects).extent r) ≤ m.space.top := wf.graph.high r object
  rw [extent_eq found] at high
  unfold Machine.stringValue at string
  rw [view] at string
  cases kind with
  | pointers => cases string
  | bytes =>
    have place : ∀ i, payloadOffset r i = payloadOffset r 0 + i := fun i => (Nat.add_assoc _ 11 i).symm
    have fits : payloadOffset r 0 + size.toNat ≤ m.space.bytes.size := by
      rw [← place]
      exact high.trans wf.fits
    obtain rfl : m.space.bytes.slice (payloadOffset r 0) size.toNat = text := Except.ok.inj string
    have length := Bytes.length_slice m.space.bytes (payloadOffset r 0) size.toNat fits
    refine ⟨c, wf.graph.low r object, ?_, ⟨⟨size, c, found, length.symm, rfl⟩, nofun, ?_⟩⟩
    · rw [show (Content.bytes (m.space.bytes.slice (payloadOffset r 0) size.toNat)).extent =
        11 + size.toNat from congrArg (11 + ·) length]
      exact high
    · rintro xs ⟨⟩ i lt
      rw [length] at lt
      rw [Bytes.getElem?_slice, if_pos lt, place]

/-! ### Programs -/

/-- The parts of a memory that allocations leave alone. -/
def program (m : Memory) : CodeArena × CodeAddress × Array Method × ConstantPool :=
  (m.code, m.pc, m.methods, m.constants)

theorem program_eq_iff {code : CodeArena} {pc : CodeAddress} {methods : Array Method}
    {constants : ConstantPool} : m.program = (code, pc, methods, constants) ↔
      m.code = code ∧ m.pc = pc ∧ m.methods = methods ∧ m.constants = constants := by
  simp [program]

section Program

variable {p : CodeArena × CodeAddress × Array Method × ConstantPool}

theorem program_collect : Preserves (fun m : Memory => m.program = p) collect := by
  intro m same
  unfold collect
  cases run : m.collected with
  | error cause => exact same
  | ok after =>
    obtain ⟨_, _, _, _, e, -, -, rfl⟩ := collected_eq_ok run
    exact same

theorem program_allocate (n : Nat) : Preserves (fun m : Memory => m.program = p) (allocate n) := by
  have bumped : Preserves (fun m : Memory => m.program = p) (onSpace (SemiSpaces.bump n)) :=
    fun m same => same
  refine bumped.bind fun found => ?_
  cases found with
  | some r => exact .pure r
  | none =>
    refine program_collect.bind fun _ => bumped.bind fun found => ?_
    cases found with
    | some r => exact .pure r
    | none => exact .get_bind fun m => .throw _

end Program

/-! ### More behind the objects -/

/-- The same objects and tables, with more behind them. -/
structure Grows (m m' : Memory) : Prop where
  sound : m'.space.Sound
  size : m'.space.bytes.size = m.space.bytes.size
  start : m'.space.activeStart = m.space.activeStart
  top : m.space.top ≤ m'.space.top
  same : ∀ p n, p + n ≤ m.space.top → Bytes.Same m'.space.bytes p m.space.bytes p n
  classes : m'.classes = m.classes
  dictionaries : m'.dictionaries = m.dictionaries

namespace Grows

theorem trans (first : m.Grows m') (second : m'.Grows m'') : m.Grows m'' where
  sound := second.sound
  size := second.size.trans first.size
  start := second.start.trans first.start
  top := first.top.trans second.top
  same p n below := (second.same p n (below.trans first.top)).trans (first.same p n below)
  classes := second.classes.trans first.classes
  dictionaries := second.dictionaries.trans first.dictionaries

theorem withStack (grows : m.Grows m') (s : FrameStack) : m.Grows { m' with stack := s } :=
  { grows with }

theorem half_eq (grows : m.Grows m') (sound : m.space.Sound) : m'.space.half = m.space.half := by
  have size := grows.size
  rw [grows.sound.size_eq, sound.size_eq] at size
  omega

variable (grows : m.Grows m') (wf : m.WellFormed objects)
include grows wf

theorem unchanged {a : Ref} (object : a ∈ objects) : Bytes.Same m'.space.bytes (a.offset 0)
    m.space.bytes (a.offset 0) ((m.graph objects).extent a) :=
  grows.same _ _ (wf.graph.high a object)

theorem header?_eq {a : Ref} (object : a ∈ objects) {objects' : Set Ref} :
    (m'.graph objects').header? a = (m.graph objects).header? a := by
  obtain ⟨kind, size, d, found⟩ := wf.graph.header object
  have nonnull := ne_null_of_header? found
  exact Header.read?_congr (grows.unchanged wf object) (wf.graph.header_le_extent object) nonnull
    nonnull

/-- The objects of before take no more room than they did. -/
theorem sum_extent_le {live : List Ref} (nodup : live.Nodup) (old : ∀ a ∈ live, a ∈ objects) :
    (live.map (m'.graph objects).extent).sum ≤ m.space.top - m.space.activeStart := by
  have same : live.map (m'.graph objects).extent = live.map (m.graph objects).extent := by
    apply List.map_congr_left
    intro a mem
    unfold ObjectGraph.extent
    rw [grows.header?_eq wf (old a mem)]
  rw [same]
  exact wf.graph.sum_extent_le live nodup old

/-- **What is behind the objects does not matter**, unless it is to be an object itself. -/
theorem update (stack : m'.stack = m.stack) {objects' : Set Ref} (more : objects ⊆ objects')
    (fresh : ∀ a ∈ objects', a ∉ objects → (m'.graph objects').Fresh addressGuard m.space.bytes.size
      m.space.top a)
    (single : ∀ a ∈ objects', a ∉ objects → ∀ c ∈ objects', c ∉ objects → a = c) :
    m'.WellFormed objects' := by
  have roots : (m'.graph objects').roots = (m.graph objects).roots := by
    change m'.rootSlots = m.rootSlots
    unfold rootSlots
    rw [grows.classes, grows.dictionaries, stack]
  refine ⟨grows.sound, ?_⟩
  rw [grows.size]
  refine wf.graph.update grows.start roots wf.sound.start_le_top grows.top ?le_hi
    (fun a object => grows.header?_eq wf object) ?slot more fresh single
  case le_hi =>
    rw [← grows.size]
    exact grows.sound.top_le_end.trans grows.sound.end_le_size
  case slot =>
    intro a object slot mem w word
    have same := (grows.unchanged wf object).word? slot.1 (wf.graph.slot_inside object mem)
    exact (wf.graph.slot a object slot mem w (same.symm.trans word)).mono roots more

/-- The objects of before are in order, whatever is on the stack now. -/
theorem wellFormed (words : ∀ a ∈ m'.stack.liveWords, a ∈ objects ∨ Stray addressGuard m.space.bytes.size a) :
    m'.WellFormed objects := by
  have kept : ({ m' with stack := m.stack } : Memory).WellFormed objects :=
    (grows.withStack m.stack).update wf rfl (fun _ mem => mem) (fun _ mem new => absurd mem new)
      fun _ mem new => absurd mem new
  refine ⟨grows.sound, { kept.graph with root := ?_ }⟩
  intro a mem
  rcases List.mem_append.1 mem with table | live
  · exact kept.graph.root a (List.mem_append_left _ table)
  · rw [grows.size]
    exact words a live

end Grows

/-! ### Adding an object -/

/-- **One more object**, behind all others. -/
structure Adds (m m' : Memory) (r c : Ref) (content : Content) : Prop where
  sound : m'.space.Sound
  size : m'.space.bytes.size = m.space.bytes.size
  start : m'.space.activeStart = m.space.activeStart
  place : r.offset 0 = m.space.top
  top : m'.space.top = m.space.top + content.extent
  same : ∀ p n, p + n ≤ m.space.top → Bytes.Same m'.space.bytes p m.space.bytes p n
  shows_ : m'.space.bytes.Shows r c content
  classes : m'.classes = m.classes
  dictionaries : m'.dictionaries = m.dictionaries
  stack : m'.stack = m.stack
  program : m'.program = m.program
  stats : m'.stats = m.stats

theorem adds_extended {kind : ObjectKind} {size : Word} (sound : m.space.Sound)
    (room : kind.objectBytes size ≤ m.space.free) (c : Ref) :
    m.Adds (m.extended kind size c) (Ref.ofOffset m.space.top) c (.blank kind size) := by
  have inside := room_inside sound room
  have fits := inside.trans sound.end_le_size
  have addressable := sound.addressable
  refine
    { sound := ⟨size_layOut.trans sound.size_eq, ?_, inside, size_layOut.trans_lt addressable⟩
      size := size_layOut
      start := rfl
      place := Ref.offset_ofOffset (by have := sound.top_le_end; have := sound.end_le_size; omega) 0
      top := ?_
      same := same_layOut fits
      shows_ := showsObject_layOut fits addressable rfl
      classes := rfl
      dictionaries := rfl
      stack := rfl
      program := rfl
      stats := rfl }
  · exact sound.start_le_top.trans (Nat.le_add_right _ _)
  · rw [Content.extent_blank]
    rfl

namespace Adds

variable (adds : m.Adds m' r c content)
include adds

theorem holds (ordered : m.space.activeStart ≤ m.space.top) : m'.Holds r c content where
  low := by
    rw [adds.start, adds.place]
    exact ordered
  high := by
    rw [adds.top, ← adds.place]
    exact Nat.le_refl _
  shows_ := adds.shows_

theorem grows : m.Grows m' where
  sound := adds.sound
  size := adds.size
  start := adds.start
  top := by
    rw [adds.top]
    exact Nat.le_add_right _ _
  same := adds.same
  classes := adds.classes
  dictionaries := adds.dictionaries

/-- The room that is left has become less by the object. -/
theorem free_eq (sound : m.space.Sound) : m'.space.free + content.extent = m.space.free := by
  have start := adds.start
  have top := adds.top
  have half := adds.grows.half_eq sound
  have inside := adds.sound.top_le_end
  unfold SemiSpaces.free
  unfold SemiSpaces.activeEnd at inside ⊢
  omega

/-- What is below is as it was. -/
theorem holds_below {a d : Ref} {other : Content} (holds : m.Holds a d other) : m'.Holds a d other where
  low := by
    rw [adds.start]
    exact holds.low
  high := by
    rw [adds.top]
    exact holds.high.trans (Nat.le_add_right _ _)
  shows_ := ShowsObject.congr holds.shows_ (adds.same _ _ holds.high)

theorem rootSlots_eq : m'.rootSlots = m.rootSlots := by
  unfold rootSlots
  rw [adds.classes, adds.dictionaries, adds.stack]

theorem not_mem (wf : m.WellFormed objects) : r ∉ objects := by
  intro object
  have high : r.offset ((m.graph objects).extent r) ≤ m.space.top := wf.graph.high r object
  have long := wf.graph.header_le_extent object
  have := adds.place
  rw [offset_eq_add] at high
  omega

/-- The new object is in no table, and nothing refers to it. -/
theorem not_root (wf : m.WellFormed objects) : r ∉ m.rootSlots.all := by
  intro root
  have stray : Stray addressGuard m.space.bytes.size r :=
    (wf.graph.root r root).resolve_left (adds.not_mem wf)
  have long := content.header_le_extent
  have := adds.place
  have := adds.top
  have := adds.sound.top_le_end
  have := adds.sound.end_le_size
  have := adds.size
  have := wf.sound.guard_le
  have := wf.sound.start_le_top
  unfold Stray at stray
  omega

theorem shapeOf_eq (wf : m.WellFormed objects) : m'.rootSlots.shapeOf r = .ordinary := by
  have root := adds.not_root wf
  rw [← adds.rootSlots_eq] at root
  unfold RootSlots.all at root
  rw [List.mem_append, List.mem_append, not_or, not_or] at root
  unfold RootSlots.shapeOf
  rw [if_neg root.1.1, if_neg root.1.2]

/-- **A memory with one more object is in order**, if the class is and if the fields are. -/
theorem wellFormed (wf : m.WellFormed objects) (cls : c = Ref.null ∨ c ∈ m.classes.toList)
    (fields : ∀ w, Value.raw w ∈ content.values →
      (⟨w⟩ : Ref) ∈ objects ∨ Stray addressGuard m.space.bytes.size ⟨w⟩) :
    m'.WellFormed (insert r objects) := by
  obtain ⟨size, read, length⟩ := adds.shows_.read?
  have found : (m'.graph (insert r objects)).header? r = some ⟨content.kind, size, .normal c⟩ := read
  have roots : (m'.graph (insert r objects)).roots = (m.graph objects).roots := adds.rootSlots_eq
  refine adds.grows.update wf adds.stack (Set.subset_insert r objects) ?fresh ?single
  case single =>
    rintro a (rfl | old) new d (rfl | old') new'
    · rfl
    · exact absurd old' new'
    · exact absurd old new
    · exact absurd old new
  case fresh =>
    rintro a (rfl | old) new
    · refine ⟨⟨_, c, found, rfl⟩, adds.place.ge, ?_, ?_⟩
      · rw [extent_of_shows (show (m'.graph (insert a objects)).bytes.Shows a c content from
          adds.shows_), offset_eq_add, adds.place]
        exact adds.top.ge
      · intro slot mem w word
        rw [slots_eq found, show (m'.graph (insert a objects)).roots.shapeOf a = .ordinary from
          adds.shapeOf_eq wf] at mem
        rcases List.mem_cons.1 mem with rfl | mem
        · have word' := (word?_class found).2
          cases word'.symm.trans word
          unfold Allowed
          rw [roots]
          exact cls
        · cases content with
          | bytes xs => cases mem
          | fields values =>
            obtain ⟨i, inside, rfl⟩ := List.mem_map.1 mem
            have inside : i < values.length := by
              rw [← show size.toNat = values.length from length]
              exact List.mem_range.1 inside
            have field : values[i]? = some values[i] := List.getElem?_eq_getElem inside
            obtain ⟨w', value, word'⟩ := adds.shows_.fields i _ field
            cases word'.symm.trans word
            have raw : values[i] = .raw w := by
              cases entry : values[i] with
              | object id =>
                rw [entry] at value
                cases value
              | raw u =>
                rw [entry] at value
                cases value
                rfl
            refine (fields w ?_).imp_left (Set.mem_insert_of_mem a)
            rw [← raw]
            exact List.getElem_mem inside
    · exact absurd old new

/-- The payload of the new object is filled. -/
theorem setPayload {old xs : List UInt8} (bytes : content = .bytes old) (length : xs.length = old.length) :
    m.Adds { m' with space := m'.space.mapBytes (Object.setPayload · r 0 xs) } r c (.bytes xs) := by
  subst bytes
  have place := adds.place
  have top := adds.top
  have high := adds.sound.top_le_end.trans adds.sound.end_le_size
  have extent : (Content.bytes old).extent = 11 + old.length := rfl
  have start : payloadOffset r 0 = r.offset 0 + 11 := rfl
  have stop : r.offset (Content.bytes old).extent = r.offset 0 + (Content.bytes old).extent := rfl
  have fits : payloadOffset r 0 + xs.length ≤ m'.space.bytes.size := by omega
  have size : (Object.setPayload m'.space.bytes r 0 xs).size = m'.space.bytes.size :=
    Bytes.size_overwrite _ _ _
  have filled := ShowsObject.setPayload adds.shows_ (by dsimp only; omega) rfl
    (show 0 + xs.length ≤ old.length by omega)
  have all : old.take 0 ++ xs ++ old.drop (0 + xs.length) = xs := by
    rw [List.take_zero, List.nil_append, List.drop_eq_nil_of_le (by omega), List.append_nil]
  rw [all] at filled
  refine
    { sound := SemiSpaces.Sound.mapBytes (f := (Object.setPayload · r 0 xs)) adds.sound size
      size := size.trans adds.size
      start := adds.start
      place := place
      top := ?_
      same := ?_
      shows_ := filled
      classes := adds.classes
      dictionaries := adds.dictionaries
      stack := adds.stack
      program := adds.program
      stats := adds.stats }
  · have extent' : (Content.bytes xs).extent = 11 + xs.length := rfl
    change m'.space.top = _
    omega
  · intro p n below
    exact (Bytes.same_overwrite _ _ _ p n fits (by omega)).trans (adds.same p n below)

theorem noted (event : Event) : m.Adds { m' with journal := m'.journal.note event } r c content where
  sound := adds.sound
  size := adds.size
  start := adds.start
  place := adds.place
  top := adds.top
  same := adds.same
  shows_ := adds.shows_
  classes := adds.classes
  dictionaries := adds.dictionaries
  stack := adds.stack
  program := adds.program
  stats := adds.stats

end Adds

/-- **Allocation in two steps**: room is made, which may move everything, and the object is put
    behind all others.  Only the first step can fail. -/
theorem WellFormed.allocateObject_adds (wf : m.WellFormed objects) (readable : m.stack.Readable)
    {classId : Option ClassId} (known : m.classOrNull classId = .ok c) (kind : ObjectKind) (size : Word) :
    ∃ (m₁ : Memory) (φ : Ref → Ref), m.CopiedTo m₁ objects φ ∧ m₁.program = m.program ∧
      ((∃ available, allocateObject kind size classId m =
          .error (.outOfMemory (kind.objectBytes size) available) m₁) ∨
        ∃ r m', allocateObject kind size classId m = .ok r m' ∧
          m₁.Adds m' r ((m.graph objects).follow φ c) (.blank kind size)) := by
  obtain ⟨m₁, φ, live, copied, -, -, outcome⟩ := wf.allocate_eq readable (kind.objectBytes size)
  have program := program_allocate (kind.objectBytes size) m rfl
  have current : m₁.classOrNull classId = .ok ((m.graph objects).follow φ c) := by
    rw [copied.classOrNull_eq wf, known]
    rfl
  refine ⟨m₁, φ, copied, ?_⟩
  split at outcome
  · rw [outcome] at program
    exact ⟨program, Or.inl ⟨_, allocateObject_exhausted known outcome⟩⟩
  · obtain ⟨room, run⟩ := outcome
    rw [run] at program
    exact ⟨program, Or.inr ⟨_, _, allocateObject_laidOut known copied.sound current room run,
      adds_extended copied.sound room _⟩⟩

/-! ### With and without a collection -/

/-- Where there is room for it, an object is made at once. -/
theorem allocateObject_of_room (sound : m.space.Sound) {classId : Option ClassId}
    (known : m.classOrNull classId = .ok c) {kind : ObjectKind} {size : Word}
    (room : kind.objectBytes size ≤ m.space.free) :
    ∃ r m', allocateObject kind size classId m = .ok r m' ∧ m.Adds m' r c (.blank kind size) :=
  ⟨_, _, allocateObject_laidOut known sound known room (allocate_of_room room),
    adds_extended sound room c⟩

/-- A collection makes the other half the active one. -/
theorem exchanged_of_collect (run : collect m = .ok () m') :
    m'.space.activeStart = m.space.inactiveStart ∧ m'.space.half = m.space.half := by
  obtain ⟨_, _, _, _, e, -, -, rfl⟩ := collected_eq_ok (collected_of_collect run)
  exact ⟨rfl, rfl⟩

/-- In the other half there are no objects. -/
theorem view_of_exchanged (sound : m.space.Sound) (sound' : m'.space.Sound)
    (start : m'.space.activeStart = m.space.inactiveStart) (half : m'.space.half = m.space.half)
    (low : m.space.activeStart ≤ r.offset 0) (high : r.offset 0 < m.space.activeEnd) :
    m'.view r = .error (.invalidObject r) := by
  have nonnull : r.isNull = false := by
    have := sound.addressable
    have := sound.end_le_size
    rw [Ref.isNull_eq_false_iff]
    rintro rfl
    have null : Ref.null.offset 0 = wordLimit - 1 := rfl
    omega
  have outside : m'.space.isAllocated r 11 = false := by
    have top := sound'.top_le_end
    have place : r.offset 11 = r.offset 0 + 11 := rfl
    unfold SemiSpaces.activeEnd at high top
    rcases m.space.activeStart_cases with h | h
    all_goals
      simp only [SemiSpaces.isAllocated, nonnull, Bool.not_false, Bool.true_and, Bool.and_eq_false_imp,
        decide_eq_true_eq, decide_eq_false_iff_not]
      omega
  unfold view
  rw [nonnull, outside]
  rfl

/-- **An object after a collection.**  There is no room for the object, but what is reachable
    leaves enough: objects that were there in `base`, and have grown no larger since. -/
theorem allocateObject_of_full {base : Memory} (wf₀ : base.WellFormed objects) (grows : base.Grows m)
    (wf : m.WellFormed objects) (readable : m.stack.Readable) {classId : Option ClassId}
    (known : m.classOrNull classId = .ok c) {kind : ObjectKind} {size : Word}
    (full : m.space.free < kind.objectBytes size)
    (enough : base.space.top - base.space.activeStart + kind.objectBytes size ≤ m.space.half) :
    ∃ m₁ φ r m', collect m = .ok () m₁ ∧ m.CopiedTo m₁ objects φ ∧
      m₁.space.top - m₁.space.activeStart ≤ base.space.top - base.space.activeStart ∧
      allocateObject kind size classId m = .ok r m' ∧
      m₁.Adds m' r ((m.graph objects).follow φ c) (.blank kind size) := by
  obtain ⟨m₁, φ, live, run, copied, nodup, reach, top⟩ := wf.collect_eq readable
  have used := grows.sum_extent_le wf₀ nodup fun a mem => ((reach a).1 mem).object
  have room : kind.objectBytes size ≤ m₁.space.free := by
    unfold SemiSpaces.free SemiSpaces.activeEnd
    rw [top, copied.half_eq wf]
    omega
  have current : m₁.classOrNull classId = .ok ((m.graph objects).follow φ c) := by
    rw [copied.classOrNull_eq wf, known]
    rfl
  exact ⟨m₁, φ, _, _, run, copied, by omega, allocateObject_laidOut known copied.sound current room
    (allocate_of_collect (Nat.not_le.2 full) run room), adds_extended copied.sound room _⟩

end Memory

/-! ### Strings, Integers and Arrays -/

namespace Machine

open Memory

/-- **Making an object.**  Everything may have been moved; then there was no room, or there is
    one more object. -/
def Makes (x : Run Ref) (m : Machine) (objects : Set Ref) (c : Ref) (content : Content) : Prop :=
  ∃ (m₁ : Memory) (φ : Ref → Ref), m.memory.CopiedTo m₁ objects φ ∧
    m₁.program = m.memory.program ∧
    ((∃ need available, x m =
        .error (.memory (.outOfMemory need available)) { m with memory := m₁ }) ∨
      ∃ r m', x m = .ok r { m with memory := m' } ∧
        m₁.Adds m' r ((m.memory.graph objects).follow φ c) content)

/-- What has been allocated is filled. -/
theorem newBytes_of_adds {m : Machine} {m₁ m₂ : Memory} {classId : Option ClassId} {r c : Ref}
    {xs : List UInt8} {size : Word} (length : xs.length = size.toNat) (event : Ref → Event)
    (sound : m₁.space.Sound) (run : Memory.allocateObject .bytes size classId m.memory = .ok r m₂)
    (adds : m₁.Adds m₂ r c (.blank .bytes size)) :
    ∃ m', (do
      let addr ← Memory.allocateObject .bytes size classId
      fillPayload addr xs
      Memory.note (event addr)
      return addr : Run Ref) m = .ok r { m with memory := m' } ∧ m₁.Adds m' r c (.bytes xs) := by
  refine ⟨_, ?_, (adds.setPayload rfl (length.trans List.length_replicate.symm)).noted (event r)⟩
  have header : m₂.header r = .ok ⟨.bytes, UInt32.ofNat (Content.blank .bytes size).length, .normal c⟩ :=
    (adds.holds sound.start_le_top).header adds.sound
  have fits : Header.payloadBytes ⟨.bytes, UInt32.ofNat (Content.blank .bytes size).length, .normal c⟩ =
      xs.length := by
    change (UInt32.ofNat (Content.blank .bytes size).length).toNat = xs.length
    rw [Content.length_blank, UInt32.ofNat_toNat, length]
  have filled : fillPayload r xs { m with memory := m₂ } = .ok () { m with memory :=
      { m₂ with space := m₂.space.mapBytes (Object.setPayload · r 0 xs) } } := by
    have asked : Memory.query (·.header r) m₂ = .ok _ m₂ := query_ok header
    refine (run_bind_ok (Lockstep.onMemory_ok asked)).trans ?_
    rw [if_pos fits]
    rfl
  exact (run_bind_ok (Lockstep.onMemory_ok run)).trans (run_bind_ok filled)

theorem toNat_length {α : Type} {xs : List α} (short : xs.length < wordLimit) :
    xs.length = (UInt32.ofNat xs.length).toNat := by
  rw [UInt32.toNat_ofNat']
  exact (Nat.mod_eq_of_lt short).symm

section Makes

variable {m : Machine} {objects : Set Ref} {c : Ref} (wf : m.memory.WellFormed objects)
  (readable : m.memory.stack.Readable)
include wf readable

theorem newBytes_makes {classId : Option ClassId} (known : m.memory.classOrNull classId = .ok c)
    {xs : List UInt8} {size : Word} (length : xs.length = size.toNat) (event : Ref → Event) :
    Makes (do
      let addr ← Memory.allocateObject .bytes size classId
      fillPayload addr xs
      Memory.note (event addr)
      return addr) m objects c (.bytes xs) := by
  obtain ⟨m₁, φ, copied, program, ⟨available, run⟩ | ⟨r, m₂, run, adds⟩⟩ :=
    wf.allocateObject_adds readable known .bytes size
  · exact ⟨m₁, φ, copied, program, Or.inl ⟨_, _, run_bind_error (Lockstep.onMemory_error run)⟩⟩
  · obtain ⟨m', filled, adds'⟩ := newBytes_of_adds length event copied.sound run adds
    exact ⟨m₁, φ, copied, program, Or.inr ⟨r, m', filled, adds'⟩⟩

theorem newString_makes (known : m.memory.classOrNull m.known.string = .ok c) {xs : List UInt8}
    (short : xs.length < wordLimit) : Makes (newString xs) m objects c (.bytes xs) :=
  newBytes_makes wf readable known (toNat_length short) fun addr => .newString addr xs

theorem newInteger_makes (known : m.memory.classOrNull m.known.integer = .ok c) (value : Word) :
    Makes (newInteger value) m objects c (.bytes value.bytes) :=
  newBytes_makes wf readable known (Word.length_bytes value) fun addr => .newInteger addr value

theorem newArray_makes (known : m.memory.classOrNull m.known.array = .ok c) (length : Word) :
    Makes (newArray length) m objects c (.refs (List.replicate length.toNat Ref.null)) := by
  obtain ⟨m₁, φ, copied, program, ⟨available, run⟩ | ⟨r, m₂, run, adds⟩⟩ :=
    wf.allocateObject_adds readable known .pointers length
  · refine ⟨m₁, φ, copied, program, Or.inl ⟨ObjectKind.pointers.objectBytes length, available,
      (run_get_bind _).trans ?_⟩⟩
    exact run_bind_error (Lockstep.onMemory_error run)
  · rw [Content.blank_pointers] at adds
    refine ⟨m₁, φ, copied, program, Or.inr ⟨r, _, (run_get_bind _).trans ?_,
      adds.noted (.newArray r length)⟩⟩
    exact run_bind_ok (Lockstep.onMemory_ok run)

end Makes

section Room

variable {m : Machine} {c : Ref} (sound : m.memory.space.Sound)
include sound

theorem newBytes_of_room {classId : Option ClassId} (known : m.memory.classOrNull classId = .ok c)
    {xs : List UInt8} {size : Word} (length : xs.length = size.toNat) (event : Ref → Event)
    (room : 11 + xs.length ≤ m.memory.space.free) :
    ∃ r m', (do
      let addr ← Memory.allocateObject .bytes size classId
      fillPayload addr xs
      Memory.note (event addr)
      return addr : Run Ref) m = .ok r { m with memory := m' } ∧ m.memory.Adds m' r c (.bytes xs) := by
  have fits : ObjectKind.bytes.objectBytes size ≤ m.memory.space.free := by
    change 11 + size.toNat ≤ _
    rw [← length]
    exact room
  obtain ⟨r, m₂, run, adds⟩ := allocateObject_of_room sound known fits
  obtain ⟨m', filled, adds'⟩ := newBytes_of_adds length event sound run adds
  exact ⟨r, m', filled, adds'⟩

theorem newString_of_room (known : m.memory.classOrNull m.known.string = .ok c) {xs : List UInt8}
    (short : xs.length < wordLimit) (room : 11 + xs.length ≤ m.memory.space.free) :
    ∃ r m', newString xs m = .ok r { m with memory := m' } ∧ m.memory.Adds m' r c (.bytes xs) :=
  newBytes_of_room sound known (toNat_length short) (fun addr => .newString addr xs) room

theorem newInteger_of_room (known : m.memory.classOrNull m.known.integer = .ok c) (value : Word)
    (room : 15 ≤ m.memory.space.free) :
    ∃ r m', newInteger value m = .ok r { m with memory := m' } ∧
      m.memory.Adds m' r c (.bytes value.bytes) :=
  newBytes_of_room sound known (Word.length_bytes value) (fun addr => .newInteger addr value) room

theorem newArray_of_room (known : m.memory.classOrNull m.known.array = .ok c) {length : Word}
    (room : 11 + length.toNat * 4 ≤ m.memory.space.free) :
    ∃ r m', newArray length m = .ok r { m with memory := m' } ∧
      m.memory.Adds m' r c (.refs (List.replicate length.toNat Ref.null)) := by
  obtain ⟨r, m₂, run, adds⟩ :=
    allocateObject_of_room sound known (show ObjectKind.pointers.objectBytes length ≤ _ from room)
  rw [Content.blank_pointers] at adds
  refine ⟨r, _, (run_get_bind _).trans ?_, adds.noted (.newArray r length)⟩
  exact run_bind_ok (Lockstep.onMemory_ok run)

end Room

section Shortage

variable {m M : Machine} {c r : Ref} {content : Content} {act : Run Ref} {e : MachineError}
  (of_room : content.extent ≤ m.memory.space.free →
    ∃ r m', act m = .ok r { m with memory := m' } ∧ m.memory.Adds m' r c content)
include of_room

theorem free_lt_of_error (failed : act m = .error e M) : m.memory.space.free < content.extent := by
  by_contra enough
  obtain ⟨r, m', run, -⟩ := of_room (Nat.not_lt.1 enough)
  cases failed.symm.trans run

/-- Making an object uses up no more room than it takes, also where a collection comes first. -/
theorem free_le_of_ok (sound : m.memory.space.Sound) (run : act m = .ok r M) :
    m.memory.space.free ≤ M.memory.space.free + content.extent := by
  by_cases enough : content.extent ≤ m.memory.space.free
  · obtain ⟨r', m', run', adds⟩ := of_room enough
    cases run.symm.trans run'
    exact (adds.free_eq sound).ge
  · exact (Nat.not_le.1 enough).le.trans (Nat.le_add_left _ _)

end Shortage

end Machine

end ObjectMachine
