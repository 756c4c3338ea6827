/-
  ObjectMachine/Proofs/MemoryOperations.lean
  ==========================================
  **The operations of a memory, ideally** — questions about objects, and new objects.

  What an operation answers depends on the ideal memory alone, up to the placement; what it
  does is done to the ideal memory.  Allocation is the one operation whose outcome depends
  on the size of the heap, and there are three: the object is new, the heap is exhausted,
  or the class does not exist.
-/
import ObjectMachine.Proofs.ObjectUpdates
import ObjectMachine.Proofs.Runs

namespace ObjectMachine

namespace Memory

theorem onSpace_eq {α : Type} (act : SemiSpaces → α × SemiSpaces) (m : Memory) :
    onSpace act m = .ok (act m.space).1 { m with space := (act m.space).2 } := rfl

theorem modifyHeap_eq (f : Bytes → Bytes) (m : Memory) :
    modifyHeap f m = .ok () { m with space := m.space.mapBytes f } := rfl

theorem query_ok {α : Type} {f : Memory → Except MemoryError α} {m : Memory} {a : α}
    (h : f m = .ok a) : query f m = .ok a m := by
  unfold query
  rw [h]

theorem query_error {α : Type} {f : Memory → Except MemoryError α} {m : Memory} {e : MemoryError}
    (h : f m = .error e) : query f m = .error e m := by
  unfold query
  rw [h]

/-- There is an object where a header can be read. -/
theorem view_of_read {m : Memory} {r : Ref} {header : Header}
    (read : Header.read? m.space.bytes r = some header) (low : m.space.activeStart ≤ r.offset 0)
    (high : r.offset 11 ≤ m.space.top) (fits : r.offset header.objectBytes ≤ m.space.bytes.size) :
    m.view r = .ok ⟨m.space.bytes, r, header⟩ := by
  have nonnull := ((Header.read?_eq_some_iff _ _ _).1 read).1
  have nn : r.isNull = false := by simpa using nonnull
  have allocated : m.space.isAllocated r 11 = true := by
    unfold SemiSpaces.isAllocated
    rw [nn]
    simp only [Bool.not_false, Bool.true_and, Bool.and_eq_true, decide_eq_true_eq]
    exact ⟨low, high⟩
  have found : ObjectView.at? m.space.bytes r = some ⟨m.space.bytes, r, header⟩ := by
    unfold ObjectView.at?
    rw [read]
    exact if_pos fits
  unfold Memory.view
  rw [nn, if_neg (by decide), if_pos allocated, found]

/-- There is no object at a word that is no address. -/
theorem view_stray {m : Memory} (sound : m.space.Sound) {a : Ref}
    (stray : ObjectGraph.Stray addressGuard m.space.bytes.size a) :
    m.view a = .error (if a = Ref.null then .nullDereference else .invalidObject a) := by
  have := sound.guard_le
  have := sound.top_le_end
  have := sound.end_le_size
  unfold Memory.view
  by_cases null : a = Ref.null
  · subst null
    rfl
  · have nn : a.isNull = false := (Ref.isNull_eq_false_iff a).2 null
    have outside : m.space.isAllocated a 11 = false := by
      unfold SemiSpaces.isAllocated
      rw [nn]
      simp only [Bool.not_false, Bool.true_and, Bool.and_eq_false_iff, decide_eq_false_iff_not]
      have at11 : a.offset 11 = a.offset 0 + 11 := rfl
      unfold ObjectGraph.Stray at stray
      omega
    rw [nn, if_neg (by decide), outside, if_neg null, if_neg (by decide)]

theorem header_of_view {m : Memory} {r : Ref} {v : ObjectView} (h : m.view r = .ok v) :
    m.header r = .ok v.header := by
  unfold Memory.header
  rw [h]
  rfl

theorem writeHeader_eq {m : Memory} {r : Ref} (header : Header)
    (fits : r.offset 11 ≤ m.space.bytes.size) :
    writeHeader r header m =
      .ok () { m with space := m.space.mapBytes (·.overwrite (r.offset 0) header.encode) } := by
  unfold writeHeader
  rw [run_get_bind, if_neg (by omega)]
  rfl

theorem collect_of_collected {m m' : Memory} (run : m.collected = .ok m') :
    collect m = .ok () m' := by
  unfold collect
  rw [run]

theorem collect_of_fault {m : Memory} {cause : Fault} (run : m.collected = .error cause) :
    collect m = .error (.fault cause) m := by
  unfold collect
  rw [run]

theorem bump_of_room {m : Memory} {n : Nat} (room : n ≤ m.space.free) :
    onSpace (SemiSpaces.bump n) m =
      .ok (some (Ref.ofOffset m.space.top)) { m with space := (m.space.bump n).2 } := by
  rw [onSpace_eq]
  unfold SemiSpaces.bump
  rw [if_neg (by omega)]

theorem bump_of_full {m : Memory} {n : Nat} (full : ¬n ≤ m.space.free) :
    onSpace (SemiSpaces.bump n) m = .ok none m := by
  rw [onSpace_eq]
  unfold SemiSpaces.bump
  rw [if_pos (by omega)]

section Allocate

variable {m m' : Memory} {n : Nat}

theorem allocate_of_room (room : n ≤ m.space.free) : allocate n m =
    .ok (Ref.ofOffset m.space.top) { m with space := (m.space.bump n).2 } := by
  unfold allocate
  rw [run_bind_ok (bump_of_room room)]
  rfl

variable (full : ¬n ≤ m.space.free) (collected : collect m = .ok () m')
include full collected

theorem allocate_of_collect (room : n ≤ m'.space.free) : allocate n m =
    .ok (Ref.ofOffset m'.space.top) { m' with space := (m'.space.bump n).2 } := by
  unfold allocate
  rw [run_bind_ok (bump_of_full full)]
  dsimp only
  rw [run_bind_ok collected, run_bind_ok (bump_of_room room)]
  rfl

theorem allocate_of_exhausted (full' : ¬n ≤ m'.space.free) :
    allocate n m = .error (.outOfMemory n m'.space.free) m' := by
  unfold allocate
  rw [run_bind_ok (bump_of_full full)]
  dsimp only
  rw [run_bind_ok collected, run_bind_ok (bump_of_full full')]
  rfl

end Allocate

/-- What `allocateObject` does once there is room. -/
def layOutObject (r : Ref) (kind : ObjectKind) (size : Word) (c : Ref) : Run Ref := do
  writeHeader r ⟨kind, size, .normal c⟩
  if kind = .pointers then
    let _ ← query (·.header r)
    modifyHeap (Object.setPayload · r 0 (List.replicate (kind.payloadBytes size) 0xFF))
  return r

theorem layOutObject_eq {m : Memory} (sound : m.space.Sound) {kind : ObjectKind} {size : Word}
    (c : Ref) (room : kind.objectBytes size ≤ m.space.free) :
    layOutObject (Ref.ofOffset m.space.top) kind size c
        { m with space := (m.space.bump (kind.objectBytes size)).2 } =
      .ok (Ref.ofOffset m.space.top) { m with space := { m.space with
        bytes := layOut m.space.bytes m.space.top kind size c
        top := m.space.top + kind.objectBytes size } } := by
  have long : 11 ≤ kind.objectBytes size := Nat.le_add_right _ _
  have low := sound.start_le_top
  have top_le : m.space.top + kind.objectBytes size ≤ m.space.bytes.size := by
    have := sound.top_le_end
    have := sound.end_le_size
    unfold SemiSpaces.free at room
    omega
  have addressable := sound.addressable
  have place : ∀ n, (Ref.ofOffset m.space.top).offset n = m.space.top + n :=
    Ref.offset_ofOffset (by omega)
  have nonnull : Ref.ofOffset m.space.top ≠ Ref.null := Ref.ofOffset_ne_null (by omega)
  have bumped : (m.space.bump (kind.objectBytes size)).2 = ⟨m.space.bytes.wipe m.space.top
      (kind.objectBytes size), m.space.half, m.space.active,
      m.space.top + kind.objectBytes size⟩ := by
    unfold SemiSpaces.bump
    rw [if_neg (by omega)]
  rw [bumped]
  unfold layOutObject
  rw [run_bind_ok (writeHeader_eq _ (by rw [place]; simp only [Bytes.size_wipe]; omega))]
  cases kind with
  | bytes =>
    rw [if_neg (by decide)]
    dsimp only [SemiSpaces.mapBytes, layOut]
    rw [place]
    rfl
  | pointers =>
    rw [if_pos rfl]
    dsimp only [SemiSpaces.mapBytes]
    have found : (⟨⟨(m.space.bytes.wipe m.space.top (ObjectKind.pointers.objectBytes size)).overwrite
          ((Ref.ofOffset m.space.top).offset 0) (Header.encode ⟨.pointers, size, .normal c⟩),
          m.space.half, m.space.active, m.space.top + ObjectKind.pointers.objectBytes size⟩,
        m.stack, m.code, m.pc, m.methods, m.constants, m.classes, m.dictionaries, m.stats,
        m.journal⟩ : Memory).header (Ref.ofOffset m.space.top) =
          .ok ⟨.pointers, size, .normal c⟩ := by
      refine header_of_view (view_of_read ?_ ?_ ?_ ?_)
      · refine Header.read?_overwrite_encode _ _ _ nonnull ?_
        rw [place, Bytes.size_wipe]
        omega
      · rw [place]
        exact low
      · rw [place]
        dsimp only
        omega
      · rw [place, Bytes.size_overwrite, Bytes.size_wipe]
        exact top_le
    rw [run_bind_ok (query_ok found)]
    rw [run_bind_ok (modifyHeap_eq _ _)]
    dsimp only [SemiSpaces.mapBytes, layOut, Object.setPayload, payloadOffset]
    rw [place, place]
    rfl

/-- The class of a new object. -/
def classOrNull (m : Memory) : Option ClassId → Except MemoryError Ref
  | none => .ok Ref.null
  | some id => m.classRef id

section AllocateObject

variable {m m' : Memory} {kind : ObjectKind} {size : Word} {classId : Option ClassId} {c : Ref}
  {e : MemoryError}

theorem allocateObject_eq (kind : ObjectKind) (size : Word) (classId : Option ClassId) :
    allocateObject kind size classId = (do
      let _ ← query (·.classOrNull classId)
      let r ← allocate (kind.objectBytes size)
      let c ← query (·.classOrNull classId)
      layOutObject r kind size c) := by
  cases classId with
  | none => rfl
  | some id => rfl

theorem allocateObject_missing (missing : m.classOrNull classId = .error e) :
    allocateObject kind size classId m = .error e m := by
  rw [allocateObject_eq]
  exact run_bind_error (query_error missing)

variable (known : m.classOrNull classId = .ok c)
include known

theorem allocateObject_exhausted (run : allocate (kind.objectBytes size) m = .error e m') :
    allocateObject kind size classId m = .error e m' := by
  rw [allocateObject_eq, run_bind_ok (query_ok known)]
  exact run_bind_error run

theorem allocateObject_laidOut {c' : Ref} (sound : m'.space.Sound)
    (known' : m'.classOrNull classId = .ok c') (room : kind.objectBytes size ≤ m'.space.free)
    (run : allocate (kind.objectBytes size) m = .ok (Ref.ofOffset m'.space.top)
      { m' with space := (m'.space.bump (kind.objectBytes size)).2 }) :
    allocateObject kind size classId m = .ok (Ref.ofOffset m'.space.top) { m' with
      space := { m'.space with
        bytes := layOut m'.space.bytes m'.space.top kind size c'
        top := m'.space.top + kind.objectBytes size } } := by
  have known'' : Memory.classOrNull { m' with
      space := (m'.space.bump (kind.objectBytes size)).2 } classId = .ok c' := by
    cases classId with
    | none => exact known'
    | some id => exact known'
  rw [allocateObject_eq, run_bind_ok (query_ok known), run_bind_ok run, run_bind_ok (query_ok known'')]
  exact layOutObject_eq sound c' room

end AllocateObject

end Memory

/-! ### Ideal operations -/

namespace IdealMemory

variable (A : IdealMemory)

/-- Adds an object. -/
def allocate (o : Entity) : IdealMemory :=
  { A with store := Function.update A.store A.next o, next := A.next + 1 }

theorem store_allocate_next (o : Entity) : (A.allocate o).store A.next = o := by
  unfold allocate
  exact Function.update_self _ _ _

theorem store_allocate_of_lt {id : Nat} (named : id < A.next) (o : Entity) :
    (A.allocate o).store id = A.store id := by
  unfold allocate
  exact Function.update_of_ne (Nat.ne_of_lt named) _ _

/-- Changes what an object holds. -/
def setContent (id : Nat) (c : Content) : IdealMemory :=
  { A with store := Function.update A.store id { A.store id with content := c } }

/-- Changes the class of an object. -/
def setCls (id : Nat) (v : Value) : IdealMemory :=
  { A with store := Function.update A.store id { A.store id with cls := v } }

/-- The class with an index, or nothing. -/
def classValue? : Option ClassId → Option Value
  | none => some (.raw Ref.null.word)
  | some id => (A.classes[id.index.toNat]?).map .object

end IdealMemory

/-! ### Questions -/

namespace Memory.Shows

open IdealMemory ObjectGraph

variable {m : Memory} {A : IdealMemory} {η : Placement}
variable (shows_ : m.Shows A η)
include shows_

theorem view_object {id : Nat} {r : Ref} (placed : η id = some r) : ∃ size c,
    m.view r = .ok ⟨m.space.bytes, r, ⟨(A.store id).content.kind, size, .normal c⟩⟩ ∧
      size.toNat = (A.store id).content.length ∧ η.word? (A.store id).cls = some c.word := by
  obtain ⟨size, c, read, length, cls⟩ := shows_.header placed
  refine ⟨size, c, ?_, length, cls⟩
  have high := shows_.heap.high id r placed
  have long := (A.store id).content.header_le_extent
  have stop : r.offset (A.store id).content.extent = r.offset 0 + (A.store id).content.extent := rfl
  have at11 : r.offset 11 = r.offset 0 + 11 := rfl
  refine view_of_read read (shows_.heap.low id r placed) (by omega) ?_
  rw [Header.objectBytes, Content.objectBytes_eq _ length]
  exact shows_.heap.fits placed

theorem header_object {id : Nat} {r : Ref} (placed : η id = some r) : ∃ size c,
    m.header r = .ok ⟨(A.store id).content.kind, size, .normal c⟩ ∧
      size.toNat = (A.store id).content.length ∧ η.word? (A.store id).cls = some c.word := by
  obtain ⟨size, c, view, rest⟩ := shows_.view_object placed
  exact ⟨size, c, header_of_view view, rest⟩

/-- There is no object at a word that is no address. -/
theorem view_stray {w : Word} (stray : Stray addressGuard m.space.bytes.size ⟨w⟩) :
    m.view ⟨w⟩ = .error (if w = Ref.null.word then .nullDereference else .invalidObject ⟨w⟩) := by
  have null : (⟨w⟩ : Ref) = Ref.null ↔ w = Ref.null.word := by
    constructor
    · rintro ⟨⟩
      rfl
    · rintro rfl
      rfl
  rw [Memory.view_stray shows_.heap.sound stray]
  simp only [null]

theorem header_stray {w : Word} (stray : Stray addressGuard m.space.bytes.size ⟨w⟩) :
    m.header ⟨w⟩ = .error (if w = Ref.null.word then .nullDereference else .invalidObject ⟨w⟩) := by
  unfold Memory.header
  rw [shows_.view_stray stray]
  rfl

/-- The class with an index. -/
theorem classRef_eq (id : ClassId) :
    (∃ r v, A.classValue? (some id) = some v ∧ m.classRef id = .ok r ∧ η.word? v = some r.word) ∨
      (A.classValue? (some id) = none ∧ m.classRef id = .error (.classOutOfRange id.index)) := by
  have tables := congrArg (fun l : List (Option Ref) => l[id.index.toNat]?) shows_.classes
  simp only [List.getElem?_map, Array.getElem?_toList] at tables
  unfold Memory.classRef
  cases entry : m.classes[id.index.toNat]? with
  | none =>
    rw [entry] at tables
    refine Or.inr ⟨?_, rfl⟩
    rw [IdealMemory.classValue?, Option.map_eq_none_iff.1 tables]
    rfl
  | some r =>
    rw [entry] at tables
    obtain ⟨cid, found, placed⟩ := Option.map_eq_some_iff.1 tables
    refine Or.inl ⟨r, .object cid, ?_, rfl, Placement.word?_object placed⟩
    rw [IdealMemory.classValue?, found]
    rfl

theorem classOrNull_eq (classId : Option ClassId) :
    (∃ r v, A.classValue? classId = some v ∧ m.classOrNull classId = .ok r ∧
        η.word? v = some r.word) ∨
      ∃ id, classId = some id ∧ A.classValue? classId = none ∧
        m.classOrNull classId = .error (.classOutOfRange id.index) := by
  cases classId with
  | none => exact Or.inl ⟨Ref.null, _, rfl, rfl, rfl⟩
  | some id =>
    rcases shows_.classRef_eq id with found | missing
    · exact Or.inl found
    · exact Or.inr ⟨id, rfl, missing⟩

/-! ### More objects -/

omit shows_ in
theorem stack_mono {s : FrameStack} {η' : Placement} {cells : List Value} {bp : Word} {size : Nat}
    (h : s.Shows η cells bp size) (more : η'.Extends η) : s.Shows η' cells bp size := by
  refine ⟨h.size_eq, h.sp_eq, h.bp_eq, ?_⟩
  intro k v cell
  obtain ⟨w, value, word⟩ := h.cell k v cell
  exact ⟨w, more.word? value, word⟩

omit shows_ in
theorem table_mono {η' : Placement} {table : List Nat} {entries : List Ref}
    (eq : table.map η = entries.map some) (more : η'.Extends η) :
    table.map η' = entries.map some := by
  rw [← eq]
  refine List.map_congr_left ?_
  intro id mem
  obtain ⟨r, -, placed⟩ := placed_of_mem eq mem
  rw [placed]
  exact more id r placed

/-- The memory with a new object on top. -/
theorem layOut {kind : ObjectKind} {size : Word} {cls : Value} {c : Ref}
    (value : η.word? cls = some c.word) (room : kind.objectBytes size ≤ m.space.free) :
    ({ m with space := { m.space with
        bytes := ObjectMachine.layOut m.space.bytes m.space.top kind size c
        top := m.space.top + kind.objectBytes size } } : Memory).Shows
      (A.allocate ⟨cls, .blank kind size⟩)
      (Function.update η A.next (some (Ref.ofOffset m.space.top))) := by
  have more := Placement.extends_update shows_.heap.unnamed (Ref.ofOffset m.space.top)
  have extent := Content.extent_blank kind size
  have room : m.space.top + kind.objectBytes size ≤ m.space.activeEnd := by
    have := shows_.heap.sound.top_le_end
    unfold SemiSpaces.free at room
    omega
  have fits := room.trans shows_.heap.sound.end_le_size
  have heap := shows_.heap.extend (o := ⟨cls, .blank kind size⟩)
    (b := ObjectMachine.layOut m.space.bytes m.space.top kind size c) size_layOut
    (fun q n below => same_layOut fits q n below) (by rw [extent]; exact room)
    (showsObject_layOut fits shows_.heap.sound.addressable (more.word? value))
  rw [extent] at heap
  exact
    { heap := heap
      stack := stack_mono shows_.stack more
      classes := table_mono shows_.classes more
      dictionaries := table_mono shows_.dictionaries more
      code := shows_.code
      pc := shows_.pc
      methods := shows_.methods
      constants := shows_.constants }

end Memory.Shows

/-! ### Allocation -/

namespace Memory.Shows

open IdealMemory ObjectGraph

variable {m : Memory} {A : IdealMemory} {η : Placement} {harmless : Word → Prop}
variable (shows_ : m.Shows A η) (valid : A.Valid harmless)
  (stray : ∀ w, harmless w → Stray addressGuard m.space.bytes.size ⟨w⟩)
include shows_ valid stray

theorem collect_eq : ∃ m' η', Memory.collect m = .ok () m' ∧ m'.Shows A η' ∧
    m'.space.bytes.size = m.space.bytes.size := by
  obtain ⟨m', η', run, after, size⟩ := shows_.collected valid stray
  exact ⟨m', η', Memory.collect_of_collected run, after, size⟩

/-- Room is found at once, or after a collection, or not at all. -/
theorem allocate_eq (n : Nat) : ∃ m' η', m'.Shows A η' ∧
    m'.space.bytes.size = m.space.bytes.size ∧
    ((n ≤ m'.space.free ∧ Memory.allocate n m =
        .ok (Ref.ofOffset m'.space.top) { m' with space := (m'.space.bump n).2 }) ∨
      m'.space.bytes.size < addressGuard + 2 * (volume A.store A.next + n) ∧
        ∃ available, Memory.allocate n m = .error (.outOfMemory n available) m') := by
  by_cases room : n ≤ m.space.free
  · exact ⟨m, η, shows_, rfl, Or.inl ⟨room, allocate_of_room room⟩⟩
  · obtain ⟨m', η', run, after, size⟩ := shows_.collect_eq valid stray
    refine ⟨m', η', after, size, ?_⟩
    by_cases room' : n ≤ m'.space.free
    · exact Or.inl ⟨room', allocate_of_collect room run room'⟩
    · refine Or.inr ⟨?_, m'.space.free, allocate_of_exhausted room run room'⟩
      have compact := after.heap.compact
      have size_eq := after.heap.sound.size_eq
      have low := after.heap.sound.start_le_top
      have stop : m'.space.activeEnd = m'.space.activeStart + m'.space.half := rfl
      unfold SemiSpaces.free at room'
      unfold SemiSpaces.used at compact
      omega

/-- **A new object**, unless its class does not exist or the heap is exhausted. -/
theorem allocateObject_spec (kind : ObjectKind) (size : Word) (classId : Option ClassId) :
    (A.classValue? classId = none ∧ ∃ id, classId = some id ∧
      allocateObject kind size classId m = .error (.classOutOfRange id.index) m) ∨
    ∃ cls m' η', A.classValue? classId = some cls ∧ m'.space.bytes.size = m.space.bytes.size ∧
      ((m'.Shows A η' ∧ m'.space.bytes.size <
            addressGuard + 2 * (volume A.store A.next + kind.objectBytes size) ∧
          ∃ available, allocateObject kind size classId m =
            .error (.outOfMemory (kind.objectBytes size) available) m') ∨
        (m'.Shows (A.allocate ⟨cls, .blank kind size⟩) η' ∧ ∃ r, η' A.next = some r ∧
          allocateObject kind size classId m = .ok r m')) := by
  obtain ⟨m₁, η₁, after, size_eq, outcome⟩ := shows_.allocate_eq valid stray (kind.objectBytes size)
  rcases shows_.classOrNull_eq classId with ⟨c, cls, value, known, -⟩ | ⟨id, rfl, value, missing⟩
  · refine Or.inr ⟨cls, ?_⟩
    rcases outcome with ⟨room, run⟩ | ⟨full, available, run⟩
    · rcases after.classOrNull_eq classId with ⟨c', cls', value', known', word⟩ | ⟨_, -, value', -⟩
      · obtain rfl : cls' = cls := Option.some.inj (value'.symm.trans value)
        exact ⟨_, _, value, size_layOut.trans size_eq, Or.inr ⟨after.layOut word room, _,
          Function.update_self .., allocateObject_laidOut known after.heap.sound known' room run⟩⟩
      · rw [value] at value'
        cases value'
    · exact ⟨m₁, η₁, value, size_eq, Or.inl ⟨after, full, available,
        allocateObject_exhausted known run⟩⟩
  · exact Or.inl ⟨value, id, rfl, allocateObject_missing missing⟩

end Memory.Shows

end ObjectMachine
