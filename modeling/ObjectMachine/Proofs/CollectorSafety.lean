/-
  ObjectMachine/Proofs/CollectorSafety.lean
  =========================================
  **A collection of any bytes** — what holds of the collector when nothing is assumed of the
  heap: headers may be forged or overlap, and roots may be any words.

  An object is moved only if all of it lies in the half that is left, and only if it fits the
  half that is filled, so a move stays in bounds (`Moves`).  What has been moved is a row of
  headers, each of which says where the next one is (`Tiled`), and a trace that stays in its
  object leaves the row intact.

  One trace need not stay in its object.  Whatever is reached as a class is traced as one, and
  nobody asks whether it has the fields of a class.  If every object that is traced as a class
  has them, a collection ends in good order; `collect_stays_inside` says what is left if not.
-/
import ObjectMachine.Proofs.GraphPreservation

namespace ObjectMachine

/-! ### What is traced -/

/-- The fields of an object of `size` fields that are traced, with the shape that is given to
    what they lead to. -/
def Shape.fields (size : Nat) : Shape → List (Nat × Shape)
  | .ordinary => (List.range size).map fun index => (index, .ordinary)
  | .classObject =>
    [(ClassField.superclass, .classObject), (ClassField.metaclass, .classObject),
      (ClassField.methods, .dictionary)]
  | .dictionary => []

namespace Evacuation

/-- An object that the scan has come to, and the collection at that moment. -/
structure Traced where
  before : Evacuation
  offset : Nat
  header : Header

namespace Traced

def shape (object : Traced) : Shape := object.before.shapeAt object.offset

/-- The fields that are traced. -/
def fields (object : Traced) : List (Nat × Shape) :=
  if object.header.kind = .pointers then object.shape.fields object.header.size.toNat else []

/-- An object that is traced as a class but lacks fields of a class. -/
def isShortClass (object : Traced) : Bool :=
  object.shape = .classObject && object.header.kind = .pointers &&
    object.header.size.toNat < ClassField.count

/-- Only in a short class are fields traced that the object does not have. -/
theorem fields_lt_iff (object : Traced) :
    (∀ field ∈ object.fields, field.1 < object.header.size.toNat) ↔
      object.isShortClass = false := by
  obtain ⟨before, offset, ⟨kind, size, state⟩⟩ := object
  unfold fields isShortClass
  generalize shape_eq : shape ⟨before, offset, ⟨kind, size, state⟩⟩ = shape
  cases kind with
  | bytes => simp
  | pointers =>
    cases shape with
    | ordinary => simp [Shape.fields]
    | dictionary => simp [Shape.fields]
    | classObject =>
      simp only [Shape.fields, if_true, List.forall_mem_cons, decide_true, Bool.true_and,
        decide_eq_false_iff_not]
      unfold ClassField.superclass ClassField.metaclass ClassField.methods ClassField.count
      exact ⟨fun h => by omega, fun h => ⟨by omega, by omega, by omega, nofun⟩⟩

/-- **What the scan does with an object**: it goes on from the class slot to the fields that are
    traced, one after the other, and from there to the next object. -/
def ScannedTo (toEnd : Nat) (object : Traced) : Prop :=
  scan toEnd object.offset object.before = (do
    forwardClassSlot (Ref.ofOffset object.offset) object.header
    object.fields.forM fun field => forwardField (Ref.ofOffset object.offset) field.1 field.2
    scan toEnd (object.offset + object.header.objectBytes)) object.before

end Traced

/-- Moves what a moved object refers to. -/
def traceObject (cursor : Nat) (header : Header) : Run Unit := do
  forwardClassSlot (Ref.ofOffset cursor) header
  if header.kind = .pointers then forwardPayload cursor header

/-- The objects that a scan comes to. -/
def traced (toEnd cursor : Nat) (e : Evacuation) : List Traced :=
  if _inside : cursor < toEnd then
    if cursor < e.free then
      match Header.read? e.bytes (Ref.ofOffset cursor) with
      | none => []
      | some header =>
        ⟨e, cursor, header⟩ ::
          match traceObject cursor header e with
          | .ok ((), e') => traced toEnd (cursor + header.objectBytes) e'
          | .error _ => []
    else []
  else []
termination_by toEnd - cursor
decreasing_by
  have := header.objectBytes_pos
  omega

theorem traced_cons {toEnd cursor : Nat} {e e' : Evacuation} {header : Header}
    (inside : cursor < toEnd) (pending : cursor < e.free)
    (found : Header.read? e.bytes (Ref.ofOffset cursor) = some header)
    (run : traceObject cursor header e = .ok ((), e')) : traced toEnd cursor e =
      ⟨e, cursor, header⟩ :: traced toEnd (cursor + header.objectBytes) e' := by
  rw [traced, dif_pos inside, if_pos pending, found]
  dsimp only
  rw [run]

theorem traced_nil {toEnd cursor : Nat} {e : Evacuation} (outside : ¬cursor < toEnd) :
    traced toEnd cursor e = [] := by
  rw [traced, dif_neg outside]

theorem forwardFields_eq (owner : Ref) (count : Nat) : ∀ start, forwardFields owner start count =
    forM ((List.range' start count).map fun index => (index, Shape.ordinary))
      fun field => forwardField owner field.1 field.2 := by
  induction count with
  | zero =>
    intro start
    rfl
  | succ count ih =>
    intro start
    rw [forwardFields, List.range'_succ, List.map_cons, List.forM_cons, ih]

/-- An object is traced field by field. -/
theorem forwardPayload_eq (e : Evacuation) (offset : Nat) (header : Header) :
    forwardPayload offset header e =
      forM ((e.shapeAt offset).fields header.size.toNat)
        (fun field => forwardField (Ref.ofOffset offset) field.1 field.2) e := by
  unfold forwardPayload
  rw [get_bind]
  cases e.shapeAt offset with
  | dictionary => rfl
  | classObject => simp [Shape.fields, forwardClass]
  | ordinary =>
    dsimp only [Shape.fields]
    rw [forwardFields_eq, List.range_eq_range']

/-! ### Moves -/

section Moves

variable {s : SemiSpaces} {e e' : Evacuation} {a : Ref} {shape : Shape}

/-- A collection of `s` in progress that has kept to the half that it fills and to the objects
    in the half that it leaves. -/
structure Contained (s : SemiSpaces) (e : Evacuation) : Prop where
  fromStart_eq : e.fromStart = s.activeStart
  fromTop_eq : e.fromTop = s.top
  toEnd_eq : e.toEnd = s.inactiveStart + s.half
  size_eq : e.bytes.size = s.bytes.size
  guard : Bytes.Same e.bytes 0 s.bytes 0 addressGuard
  start_le_free : s.inactiveStart ≤ e.free
  free_le_end : e.free ≤ e.toEnd

/-- **What a move does**: nothing but perhaps a report, or it copies an object that lies in the
    half that is left and fits the one that is filled. -/
inductive Moves (a : Ref) (shape : Shape) (e : Evacuation) : Evacuation → Prop where
  | stays (journal : Journal) : Moves a shape e { e with journal := journal }
  | copies {header : Header} (found : Header.read? e.bytes a = some header)
      (low : e.fromStart ≤ a.offset 0) (high : a.offset header.objectBytes ≤ e.fromTop)
      (room : e.free + header.objectBytes ≤ e.toEnd) :
      Moves a shape e (e.copied a header.objectBytes shape)

theorem sourceHeader?_eq_some {header : Header} (source : e.sourceHeader? a = some header) :
    Header.read? e.bytes a = some header ∧ e.fromStart ≤ a.offset 0 ∧
      a.offset header.objectBytes ≤ e.fromTop := by
  unfold sourceHeader? at source
  dsimp only at source
  split at source
  · cases source
  · rename_i inside
    simp only [Bool.or_eq_true, decide_eq_true_eq, not_or] at inside
    split at source
    · rename_i header' found
      split at source
      · rename_i fits
        cases source
        exact ⟨found, by omega, fits⟩
      · cases source
    · cases source

theorem header_le_objectBytes (header : Header) : 11 ≤ header.objectBytes := Nat.le_add_right _ _

variable (sound : s.Sound) (contained : Contained s e)
include sound contained

/-- The halves lie above the guard, in the buffer, and apart. -/
theorem Contained.bounds : addressGuard ≤ e.fromStart ∧ addressGuard ≤ s.inactiveStart ∧
    e.fromTop ≤ e.bytes.size ∧ e.toEnd ≤ e.bytes.size ∧
    (e.toEnd ≤ e.fromStart ∨ e.fromTop ≤ s.inactiveStart) ∧ e.bytes.size < wordLimit := by
  have size := sound.size_eq
  have top := sound.top_le_end
  have addressable := sound.addressable
  unfold SemiSpaces.activeEnd at top
  rw [contained.fromStart_eq, contained.fromTop_eq, contained.toEnd_eq, contained.size_eq]
  rcases s.activeStart_cases with halves | halves <;> omega

/-- **One move** always comes to an end. -/
theorem evacuate_moves (a : Ref) (shape : Shape) :
    ∃ r e', evacuate a shape e = .ok (r, e') ∧ Moves a shape e e' := by
  unfold evacuate
  rw [get_bind]
  cases source : e.sourceHeader? a with
  | none => exact ⟨none, e, rfl, .stays e.journal⟩
  | some header =>
    dsimp only
    cases header.forwarding? with
    | some target => exact ⟨some target, e, rfl, .stays e.journal⟩
    | none =>
      dsimp only
      rw [get_bind, get_bind]
      by_cases full : e.toEnd < e.free + header.objectBytes
      · rw [if_pos full]
        exact ⟨none, _, rfl, .stays _⟩
      · rw [if_neg full]
        obtain ⟨found, low, high⟩ := sourceHeader?_eq_some source
        obtain ⟨-, -, top, stop, -⟩ := contained.bounds sound
        rw [bind_of_ok (copyOut_eq a _ shape (by omega) (by omega) (header_le_objectBytes header))]
        exact ⟨_, _, rfl, .copies found low high (by omega)⟩

theorem Contained.moves (moves : Moves a shape e e') : Contained s e' := by
  cases moves with
  | stays => exact { contained with }
  | @copies header found low high room =>
    obtain ⟨guard, start, top, stop, -⟩ := contained.bounds sound
    have long := header_le_objectBytes header
    have free := contained.start_le_free
    refine
      { fromStart_eq := contained.fromStart_eq
        fromTop_eq := contained.fromTop_eq
        toEnd_eq := contained.toEnd_eq
        size_eq := size_copied.trans contained.size_eq
        guard := ?_
        start_le_free := by rw [free_copied]; omega
        free_le_end := room }
    refine (same_copied_elsewhere (high.trans top) (by omega) long 0 addressGuard (Or.inl ?_)
      (Or.inl ?_)).trans contained.guard <;> omega

omit sound contained in
theorem Moves.shapeAt_eq (moves : Moves a shape e e') {p : Nat} (moved : p < e.free) :
    e'.shapeAt p = e.shapeAt p := by
  cases moves with
  | stays => rfl
  | copies => exact shapeAt_copied_of_lt moved

end Moves

/-! ### The row of headers -/

/-- From `next` on, headers follow one another up to `free`. -/
inductive Tiled (b : Bytes) (free : Nat) : (next : Nat) → Prop where
  | done : Tiled b free free
  | object {next : Nat} {header : Header}
      (found : Header.read? b (Ref.ofOffset next) = some header)
      (rest : Tiled b free (next + header.objectBytes)) : Tiled b free next

namespace Tiled

variable {b b' : Bytes} {free next : Nat} {header : Header}

theorem le (tiled : Tiled b free next) : next ≤ free := by
  induction tiled with
  | done => exact Nat.le_refl _
  | object _ _ ih => omega

theorem congr (tiled : Tiled b free next) (small : free < wordLimit)
    (same : b'.Same next b next (free - next)) : Tiled b' free next := by
  induction tiled with
  | done => exact .done
  | @object next header found rest ih =>
    have le := rest.le
    have long := header_le_objectBytes header
    have place := Ref.offset_ofOffset (show next < wordLimit by omega) 0
    have nonnull : Ref.ofOffset next ≠ Ref.null := Ref.ofOffset_ne_null (by omega)
    have read : Header.read? b' (Ref.ofOffset next) = Header.read? b (Ref.ofOffset next) := by
      refine Header.read?_congr (n := free - next) ?_ (by omega) nonnull nonnull
      rw [place]
      exact same
    refine .object (read.trans found) (ih ?_)
    exact same.part header.objectBytes _ (by omega)

theorem append (tiled : Tiled b free next)
    (found : Header.read? b (Ref.ofOffset free) = some header) :
    Tiled b (free + header.objectBytes) next := by
  induction tiled with
  | done => exact .object found .done
  | object first _ ih => exact .object first ih

theorem rest (tiled : Tiled b free next) (pending : next < free)
    (found : Header.read? b (Ref.ofOffset next) = some header) :
    Tiled b free (next + header.objectBytes) := by
  cases tiled with
  | done => exact absurd pending (Nat.lt_irrefl _)
  | object found' rest =>
    cases found.symm.trans found'
    exact rest

end Tiled

/-! ### Progress -/

/-- A collection in progress whose row of headers is intact from `next` on, if all is `well`. -/
structure Progress (s : SemiSpaces) (well : Prop) (next : Nat) (e : Evacuation) : Prop
    extends Contained s e where
  tiled : well → Tiled e.bytes e.free next

/-- A run that ends well, or leaves the buffer, but not if all is `well`. -/
def Safe {α : Type} (well : Prop) (post : Evacuation → Prop) : Except Fault (α × Evacuation) → Prop
  | .ok (_, e) => post e
  | .error cause => cause = .outOfBuffer ∧ ¬well

theorem Safe.bind {α β : Type} {well : Prop} {mid post : Evacuation → Prop} {x : Run α}
    {f : α → Run β} {e : Evacuation} (first : Safe well mid (x e))
    (rest : ∀ r e', x e = .ok (r, e') → mid e' → Safe well post (f r e')) :
    Safe well post ((x >>= f) e) := by
  change Safe well post ((x e).bind fun p => f p.1 p.2)
  cases run : x e with
  | ok p =>
    rw [run] at first
    exact rest p.1 p.2 run first
  | error cause =>
    rw [run] at first
    exact first

section Progress

variable {s : SemiSpaces} {well : Prop} {next p : Nat} {e e' : Evacuation} {a : Ref}
  {shape : Shape} {header : Header} (sound : s.Sound)

theorem Contained.ofSpaces (s : SemiSpaces) (journal : Journal) :
    Contained s (Evacuation.ofSpaces s journal) :=
  ⟨rfl, rfl, rfl, rfl, .refl _ _ _, Nat.le_refl _, Nat.le_add_right _ _⟩

theorem Progress.ofSpaces (s : SemiSpaces) (well : Prop) (journal : Journal) :
    Progress s well s.inactiveStart (Evacuation.ofSpaces s journal) :=
  ⟨.ofSpaces s journal, fun _ => .done⟩

theorem Progress.note (progress : Progress s well next e) (event : Event) :
    Progress s well next { e with journal := e.journal.note event } := { progress with }

include sound

/-- A move adds to the row. -/
theorem Progress.moves (progress : Progress s well next e) (low : s.inactiveStart ≤ next)
    (moves : Moves a shape e e') : Progress s well next e' := by
  refine { progress.toContained.moves sound moves with tiled := fun holds => ?_ }
  have tiled := progress.tiled holds
  cases moves with
  | stays => exact tiled
  | @copies header found from_low high room =>
    obtain ⟨guard, start, top, stop, apart, small⟩ := progress.bounds sound
    have long := header_le_objectBytes header
    have le := tiled.le
    have at_n : a.offset header.objectBytes = a.offset 0 + header.objectBytes := rfl
    have at_11 : a.offset 11 = a.offset 0 + 11 := rfl
    have start_le := progress.start_le_free
    have fits := high.trans top
    have room' : e.free + header.objectBytes ≤ e.bytes.size := room.trans stop
    have row : Tiled (e.copied a header.objectBytes shape).bytes e.free next :=
      tiled.congr (by omega) (same_copied_elsewhere fits room' long next _ (by omega) (by omega))
    have copy : Header.read? (e.copied a header.objectBytes shape).bytes (Ref.ofOffset e.free) =
        some header := by
      have nonnull := ((Header.read?_eq_some_iff _ _ _).1 found).1
      have place := Ref.offset_ofOffset (show e.free < wordLimit by omega) 0
      rw [← found]
      refine Header.read?_congr ?_ long (Ref.ofOffset_ne_null (by omega)) nonnull
      rw [place]
      exact same_copied_target fits room' long (by omega)
    exact row.append copy

/-- A word that is stored before the row leaves it intact. -/
theorem Progress.store (progress : Progress s well next e) {offset : Nat} (w : Word)
    (low : s.inactiveStart ≤ offset) (fits : offset + 4 ≤ e.bytes.size)
    (inside : well → offset + 4 ≤ next) :
    Progress s well next { e with bytes := e.bytes.overwrite offset w.bytes } := by
  obtain ⟨guard, start, top, stop, apart, small⟩ := progress.bounds sound
  have fits' : offset + w.bytes.length ≤ e.bytes.size := fits
  have free := progress.free_le_end
  refine { progress with size_eq := ?_, guard := ?_, tiled := fun holds => ?_ }
  · exact (Bytes.size_overwrite _ _ _).trans progress.size_eq
  · exact (Bytes.same_overwrite _ _ _ _ _ fits' (Or.inl (by omega))).trans progress.guard
  · have inside := inside holds
    refine (progress.tiled holds).congr (by omega) ?_
    exact Bytes.same_overwrite _ _ _ _ _ fits' (Or.inr inside)

/-- A word before the row can be loaded. -/
theorem load_safe (progress : Progress s well next e) {offset : Nat}
    (inside : well → offset + 4 ≤ next) :
    Safe well (fun e' => e' = e ∧ offset + 4 ≤ e.bytes.size) (load offset e) := by
  unfold load
  cases word : e.bytes.word? offset with
  | some w => exact ⟨rfl, (Bytes.word?_eq_some_iff_le _ _).1 ⟨w, word⟩⟩
  | none =>
    refine ⟨rfl, fun holds => ?_⟩
    obtain ⟨-, -, -, stop, -⟩ := progress.bounds sound
    have le := (progress.tiled holds).le
    have free := progress.free_le_end
    have inside := inside holds
    obtain ⟨w, present⟩ := (Bytes.word?_eq_some_iff_le e.bytes offset).2 (by omega)
    cases word.symm.trans present

/-- Tracing a field is safe, if the field lies before the row. -/
theorem forwardField_safe (progress : Progress s well next e) (low : s.inactiveStart ≤ p)
    (small : p < wordLimit) (row : s.inactiveStart ≤ next) {index : Nat}
    (inside : well → p + (11 + index * 4) + 4 ≤ next) :
    Safe well (Progress s well next) (forwardField (Ref.ofOffset p) index shape e) := by
  have place : fieldOffset (Ref.ofOffset p) index = p + (11 + index * 4) :=
    Ref.offset_ofOffset small _
  unfold forwardField
  rw [place]
  refine (load_safe sound progress inside).bind ?_
  rintro w _ - ⟨rfl, fits⟩
  by_cases null : (⟨w⟩ : Ref).isNull = true
  · rw [if_pos null]
    exact progress
  · rw [if_neg null]
    obtain ⟨r, e', run, moves⟩ := evacuate_moves sound progress.toContained ⟨w⟩ shape
    have progress' := progress.moves sound row moves
    rw [bind_of_ok run]
    cases r with
    | none => exact progress'.note _
    | some target =>
      rw [progress.size_eq, ← progress'.size_eq] at fits
      dsimp only
      rw [store_of_fits fits]
      exact progress'.store sound target.word (by omega) fits inside

/-- So is tracing several. -/
theorem forM_forwardField_safe (low : s.inactiveStart ≤ p) (small : p < wordLimit)
    (row : s.inactiveStart ≤ next) {fields : List (Nat × Shape)} :
    ∀ {e : Evacuation}, Progress s well next e →
      (well → ∀ field ∈ fields, p + (11 + field.1 * 4) + 4 ≤ next) →
      Safe well (Progress s well next)
        (forM fields (fun field => forwardField (Ref.ofOffset p) field.1 field.2) e) := by
  induction fields with
  | nil =>
    intro e progress _
    exact progress
  | cons field fields ih =>
    intro e progress inside
    rw [List.forM_cons]
    refine (forwardField_safe sound progress low small row fun holds =>
      inside holds field List.mem_cons_self).bind ?_
    intro _ e' _ progress'
    exact ih progress' fun holds field mem => inside holds field (List.mem_cons_of_mem _ mem)

/-- Updating the class word of a moved object. -/
theorem forwardClassSlot_progress (progress : Progress s well next e) (low : s.inactiveStart ≤ p)
    (row : s.inactiveStart ≤ next) (pending : p < e.free)
    (found : Header.read? e.bytes (Ref.ofOffset p) = some header) (inside : well → p + 11 ≤ next) :
    ∃ e', forwardClassSlot (Ref.ofOffset p) header e = .ok ((), e') ∧ Progress s well next e' ∧
      e'.shapeAt p = e.shapeAt p := by
  obtain ⟨-, -, -, stop, -, small⟩ := progress.bounds sound
  have free := progress.free_le_end
  have place : (Ref.ofOffset p).offset Header.classOffset = p + 7 :=
    Ref.offset_ofOffset (by omega) _
  have fits : p + 7 + 4 ≤ e.bytes.size := by
    have word := ((Header.read?_eq_some_iff _ _ _).1 found).2.2.2.2.2
    rw [← place]
    exact (Bytes.word?_eq_some_iff_le _ _).1 ⟨_, word⟩
  unfold forwardClassSlot
  cases header.classRef?.bind Ref.nonNull? with
  | none => exact ⟨e, rfl, progress, rfl⟩
  | some classRef =>
    obtain ⟨r, e', run, moves⟩ := evacuate_moves sound progress.toContained classRef .classObject
    have progress' := progress.moves sound row moves
    have shape := moves.shapeAt_eq pending
    dsimp only
    rw [bind_of_ok run]
    cases r with
    | none => exact ⟨_, rfl, progress'.note _, shape⟩
    | some target =>
      rw [progress.size_eq, ← progress'.size_eq] at fits
      dsimp only
      rw [place, store_of_fits fits]
      exact ⟨_, rfl, progress'.store sound target.word (by omega) fits inside, shape⟩

/-- **One object.**  Tracing it is safe, if it has the fields that are traced. -/
theorem traceObject_safe (progress : Progress s well (p + header.objectBytes) e)
    (low : s.inactiveStart ≤ p) (pending : p < e.free)
    (found : Header.read? e.bytes (Ref.ofOffset p) = some header)
    (long : well → Traced.isShortClass ⟨e, p, header⟩ = false) :
    Safe well (Progress s well (p + header.objectBytes)) (traceObject p header e) := by
  obtain ⟨-, -, -, stop, -, small⟩ := progress.bounds sound
  have free := progress.free_le_end
  have row : s.inactiveStart ≤ p + header.objectBytes := by omega
  have header_le := header_le_objectBytes header
  obtain ⟨e', run, progress', shape⟩ :=
    forwardClassSlot_progress sound progress low row pending found fun _ => by omega
  unfold traceObject
  rw [bind_of_ok run]
  by_cases pointers : header.kind = .pointers
  · rw [if_pos pointers, forwardPayload_eq, shape]
    refine forM_forwardField_safe sound low (by omega) row progress' fun holds field mem => ?_
    have lt := (Traced.fields_lt_iff ⟨e, p, header⟩).2 (long holds) field (by
      unfold Traced.fields
      rw [if_pos pointers]
      exact mem)
    have extent : header.objectBytes = 11 + header.size.toNat * 4 := by
      unfold Header.objectBytes
      rw [pointers]
      rfl
    dsimp only at lt
    omega
  · rw [if_neg pointers]
    exact progress'

omit sound in
theorem scan_eq (toEnd : Nat) (inside : p < toEnd) (pending : p < e.free)
    (found : Header.read? e.bytes (Ref.ofOffset p) = some header) :
    scan toEnd p e = (traceObject p header >>= fun _ => scan toEnd (p + header.objectBytes)) e := by
  rw [scan, dif_pos inside, get_bind, if_pos pending, get_bind, found]
  unfold traceObject
  rw [bind_assoc]
  by_cases pointers : header.kind = .pointers
  · simp only [if_pos pointers]
  · simp only [if_neg pointers, pure_bind]

/-- **The scan** is safe, if it comes to no short class. -/
theorem scan_safe (toEnd : Nat) (progress : Progress s well p e) (low : s.inactiveStart ≤ p)
    (long : well → ∀ object ∈ traced toEnd p e, object.isShortClass = false) :
    Safe well (Contained s) (scan toEnd p e) := by
  fun_induction traced toEnd p e with
  | case1 p e inside pending absent =>
    rw [scan, dif_pos inside, get_bind, if_pos pending, get_bind, absent]
    exact (progress.note _).toContained
  | case2 p e inside pending header found ih =>
    have rest : Progress s well (p + header.objectBytes) e :=
      { progress with tiled := fun holds => (progress.tiled holds).rest pending found }
    rw [scan_eq toEnd inside pending found]
    refine (traceObject_safe sound rest low pending found fun holds =>
      long holds _ List.mem_cons_self).bind ?_
    intro _ e' run progress'
    rw [run] at long
    exact ih e' progress' (by omega) fun holds object mem =>
      long holds object (List.mem_cons_of_mem _ mem)
  | case3 p e inside caught_up =>
    rw [scan, dif_pos inside, get_bind, if_neg caught_up]
    exact progress.toContained
  | case4 p e outside =>
    rw [scan, dif_neg outside]
    exact progress.toContained

/-- The scan does the same with each object that it comes to. -/
theorem traced_scanned (toEnd : Nat) (progress : Progress s False p e) (low : s.inactiveStart ≤ p) :
    ∀ object ∈ traced toEnd p e, object.ScannedTo toEnd := by
  fun_induction traced toEnd p e with
  | case1 | case3 | case4 => exact nofun
  | case2 p e inside pending header found ih =>
    have rest : Progress s False (p + header.objectBytes) e := { progress with tiled := False.elim }
    have row : s.inactiveStart ≤ p + header.objectBytes := by omega
    refine List.forall_mem_cons.2 ⟨?here, ?later⟩
    case here =>
      obtain ⟨e₁, slot, -, shape⟩ := forwardClassSlot_progress sound rest low row pending found nofun
      rw [Traced.ScannedTo, scan_eq toEnd inside pending found]
      unfold traceObject
      rw [bind_assoc, bind_of_ok slot, bind_of_ok slot]
      unfold Traced.fields Traced.shape
      by_cases pointers : header.kind = .pointers
      · have fields := forwardPayload_eq e₁ p header
        rw [shape] at fields
        rw [if_pos pointers, if_pos pointers]
        exact congrArg (Except.bind · fun r => scan toEnd (p + header.objectBytes) r.2) fields
      · rw [if_neg pointers, if_neg pointers]
        rfl
    case later =>
      have safe := traceObject_safe sound rest low pending found False.elim
      cases run : traceObject p header e with
      | error cause => exact nofun
      | ok r =>
        rw [run] at safe
        exact ih r.2 safe row

/-- Visiting one root. -/
theorem forwardRoot_progress (progress : Progress s well s.inactiveStart e) (kind : RootKind)
    (slot : Ref) : ∃ slot' e', forwardRoot kind slot e = .ok (slot', e') ∧
      Progress s well s.inactiveStart e' := by
  unfold forwardRoot
  by_cases null : slot.isNull = true
  · rw [if_pos null]
    exact ⟨_, e, rfl, progress⟩
  · obtain ⟨r, e', run, moves⟩ := evacuate_moves sound progress.toContained slot kind.shape
    have progress' := progress.moves sound (Nat.le_refl _) moves
    rw [if_neg null, bind_of_ok run]
    cases r with
    | some target => exact ⟨target, e', rfl, progress'⟩
    | none =>
      dsimp only
      by_cases table : kind ≠ .stack
      · rw [if_pos table]
        exact ⟨_, _, rfl, progress'.note _⟩
      · rw [if_neg table]
        exact ⟨_, _, rfl, progress'⟩

/-- Visiting the roots. -/
theorem mapM_forwardRoot_progress (roots : List (RootKind × Ref)) :
    ∀ {e : Evacuation}, Progress s well s.inactiveStart e →
      ∃ slots e', (roots.mapM fun root => forwardRoot root.1 root.2) e = .ok (slots, e') ∧
        Progress s well s.inactiveStart e' := by
  induction roots with
  | nil =>
    intro e progress
    exact ⟨[], e, rfl, progress⟩
  | cons root roots ih =>
    intro e progress
    obtain ⟨slot, e₁, run₁, progress₁⟩ := forwardRoot_progress sound progress root.1 root.2
    obtain ⟨slots, e₂, run₂, progress₂⟩ := ih progress₁
    refine ⟨slot :: slots, e₂, ?_, progress₂⟩
    rw [List.mapM_cons, bind_of_ok run₁, bind_of_ok run₂]
    rfl

end Progress

end Evacuation

/-! ### Whole collections -/

namespace SemiSpaces

/-- The halves have exchanged their roles: the new active half holds the cursor, the other one
    is zero, and the guard is as it was. -/
structure Exchanged (s s' : SemiSpaces) : Prop where
  half_eq : s'.half = s.half
  active_eq : s'.active = s.active.other
  size_eq : s'.bytes.size = s.bytes.size
  start_le_top : s'.activeStart ≤ s'.top
  top_le_end : s'.top ≤ s'.activeEnd
  guard : Bytes.Same s'.bytes 0 s.bytes 0 addressGuard
  wiped : ∀ i, s.activeStart ≤ i → i < s.activeEnd → s'.bytes[i]? = some 0

end SemiSpaces

open Evacuation

/-- Passes root slots, each with its kind, to the collector, in the order of the list. -/
def visitAll (roots : List (RootKind × Ref)) (act : RootKind → Ref → Run Ref) : Run (List Ref) :=
  roots.mapM fun root => act root.1 root.2

/-- The objects that a collection traces. -/
def SemiSpaces.traced (s : SemiSpaces) (journal : Journal) (roots : List (RootKind × Ref)) :
    List Traced :=
  match visitAll roots forwardRoot (ofSpaces s journal) with
  | .ok (_, e) => Evacuation.traced e.toEnd s.inactiveStart e
  | .error _ => []

theorem SemiSpaces.traced_eq {s : SemiSpaces} {journal : Journal} {roots : List (RootKind × Ref)}
    {slots : List Ref} {e : Evacuation}
    (visited : visitAll roots forwardRoot (ofSpaces s journal) = .ok (slots, e)) :
    s.traced journal roots = Evacuation.traced e.toEnd s.inactiveStart e := by
  unfold SemiSpaces.traced
  rw [visited]

theorem exchanged_of_contained {s : SemiSpaces} {e : Evacuation} (sound : s.Sound)
    (contained : Contained s e) : s.Exchanged ({ s with bytes := e.bytes }.flipped e.free) := by
  have fits : s.activeStart + s.half ≤ e.bytes.size := by
    rw [contained.size_eq]
    exact sound.end_le_size
  refine ⟨rfl, rfl, ?_, contained.start_le_free, ?_, ?_, ?_⟩
  · exact (Bytes.size_wipe _ _ _).trans contained.size_eq
  · exact contained.free_le_end.trans_eq contained.toEnd_eq
  · refine (Bytes.same_wipe _ _ _ _ _ fits (Or.inl ?_)).trans contained.guard
    exact (Nat.zero_add _).le.trans sound.guard_le
  · intro i low high
    exact Bytes.getElem?_wipe _ _ _ _ fits low high

theorem scannedTo_of_mem {s : SemiSpaces} (sound : s.Sound) {journal : Journal}
    {roots : List (RootKind × Ref)} {object : Traced} (mem : object ∈ s.traced journal roots) :
    object.ScannedTo (s.inactiveStart + s.half) := by
  obtain ⟨slots, e, run, progress⟩ :=
    mapM_forwardRoot_progress sound roots (.ofSpaces s False journal)
  rw [SemiSpaces.traced_eq run, progress.toEnd_eq] at mem
  exact traced_scanned sound _ progress (Nat.le_refl _) object mem

/-- **A collection of any bytes from any roots.**  It exchanges the halves, wipes the old one
    and leaves the guard alone, unless it leaves the buffer, and that takes an object that is
    traced as a class and lacks fields of a class.  Such objects are the only ones of which
    fields are traced that they do not have: from each object that it comes to, the scan goes to
    the fields of its shape and no others. -/
theorem collect_stays_inside {s : SemiSpaces} (sound : s.Sound) (stats : CollectionStats)
    (journal : Journal) (roots : List (RootKind × Ref)) :
    (match collect s stats journal (visitAll roots) with
      | .ok r => s.Exchanged r.space
      | .error cause => cause = .outOfBuffer ∧
          ∃ object ∈ s.traced journal roots, object.isShortClass = true) ∧
      ∀ object ∈ s.traced journal roots, object.ScannedTo (s.inactiveStart + s.half) ∧
        (object.isShortClass = false ↔
          ∀ field ∈ object.fields, field.1 < object.header.size.toNat) := by
  refine ⟨?_, fun object mem => ⟨scannedTo_of_mem sound mem, object.fields_lt_iff.symm⟩⟩
  generalize well_eq : (∀ object ∈ s.traced journal roots, object.isShortClass = false) = well
  obtain ⟨slots, e₁, run₁, progress₁⟩ :=
    mapM_forwardRoot_progress sound roots (.ofSpaces s well journal)
  have safe := scan_safe sound e₁.toEnd progress₁ (Nat.le_refl _) fun holds => by
    rw [← well_eq, SemiSpaces.traced_eq run₁] at holds
    exact holds
  cases run₂ : scan e₁.toEnd s.inactiveStart e₁ with
  | ok r =>
    rw [run₂] at safe
    have contained : Contained s r.2 := safe
    rw [collect_eq_ok run₁ run₂ contained.start_le_free
      (contained.free_le_end.trans_eq contained.toEnd_eq)]
    exact exchanged_of_contained sound contained
  | error cause =>
    rw [run₂] at safe
    obtain ⟨rfl, not_well⟩ := safe
    rw [collect_eq_error run₁ run₂]
    refine ⟨rfl, ?_⟩
    rw [← well_eq] at not_well
    simpa using not_well

/-! ### An object without fields -/

/-- One object, without fields, that fills the first half. -/
def emptyObjectHeap : SemiSpaces :=
  { SemiSpaces.new 22 with
    bytes := (SemiSpaces.new 22).bytes.overwrite 4096
      (Header.encode ⟨.pointers, 0, .normal Ref.null⟩)
    top := 4107 }

theorem emptyObjectHeap_sound : emptyObjectHeap.Sound where
  size_eq := (Bytes.size_overwrite _ _ _).trans Array.size_replicate
  start_le_top := by decide
  top_le_end := by decide
  addressable := by
    rw [show emptyObjectHeap.bytes.size = 4118 from
      (Bytes.size_overwrite _ _ _).trans Array.size_replicate]
    decide

/-- As a root, the object is moved to the end of the buffer. -/
theorem visitAll_emptyObject (kind : RootKind) : ∃ e,
    visitAll [(kind, ⟨4096⟩)] forwardRoot (ofSpaces emptyObjectHeap {}) =
      .ok ([Ref.ofOffset 4107], e) ∧ e.bytes.size = 4118 ∧ e.toEnd = 4118 ∧ e.free = 4118 ∧
    e.shapeAt 4107 = kind.shape ∧
    Header.read? e.bytes (Ref.ofOffset 4107) = some ⟨.pointers, 0, .normal Ref.null⟩ := by
  have size : emptyObjectHeap.bytes.size = 4118 := emptyObjectHeap_sound.size_eq
  have fits : (⟨4096⟩ : Ref).offset 11 ≤ emptyObjectHeap.bytes.size := by rw [size]; decide
  have room : 4107 + 11 ≤ emptyObjectHeap.bytes.size := by rw [size]
  have found : Header.read? emptyObjectHeap.bytes ⟨4096⟩ = some ⟨.pointers, 0, .normal Ref.null⟩ :=
    Header.read?_overwrite_encode _ ⟨4096⟩ _ (by decide)
      ((show 4107 ≤ 4118 by decide).trans_eq Array.size_replicate.symm)
  generalize start : ofSpaces emptyObjectHeap {} = e
  have bytes_eq : e.bytes = emptyObjectHeap.bytes := start ▸ rfl
  have fromStart : e.fromStart = 4096 := start ▸ rfl
  have fromTop : e.fromTop = 4107 := start ▸ rfl
  have toEnd : e.toEnd = 4118 := start ▸ rfl
  have free : e.free = 4107 := start ▸ rfl
  have shapes : e.shapes = [] := start ▸ rfl
  rw [← bytes_eq] at fits found size room
  rw [← free] at room ⊢
  have moved : evacuate ⟨4096⟩ kind.shape e =
      .ok (some (Ref.ofOffset e.free), e.copied ⟨4096⟩ 11 kind.shape) := by
    have source := sourceHeader?_eq found (fromStart.le.trans (by decide))
      (show 4107 ≤ e.fromTop from fromTop.ge)
    have enough : ¬e.toEnd < e.free + Header.objectBytes ⟨.pointers, 0, .normal Ref.null⟩ := by
      rw [toEnd, free]
      decide
    unfold evacuate
    rw [get_bind, source]
    dsimp only [Header.forwarding?]
    rw [get_bind, get_bind, if_neg enough]
    exact bind_of_ok (copyOut_eq ⟨4096⟩ 11 kind.shape fits room (Nat.le_refl _))
  have root : forwardRoot kind ⟨4096⟩ e =
      .ok (Ref.ofOffset e.free, e.copied ⟨4096⟩ 11 kind.shape) := by
    unfold forwardRoot
    rw [if_neg (by decide)]
    exact bind_of_ok moved
  refine ⟨e.copied ⟨4096⟩ 11 kind.shape, ?_, size_copied.trans size, toEnd, ?_, ?_, ?_⟩
  · unfold visitAll
    rw [List.mapM_cons, bind_of_ok root]
    rfl
  · rw [free_copied, free]
  · refine shapeAt_copied_free ?_
    rw [shapes]
    exact nofun
  · rw [← found]
    refine Header.read?_congr ?_ (Nat.le_refl _) (by rw [free]; decide) (by decide)
    rw [Ref.offset_ofOffset (by rw [free]; decide)]
    exact same_copied_target fits room (Nat.le_refl _) (Or.inr (by rw [free]; decide))

/-- From the stack, the object is an ordinary one. -/
theorem emptyObject_collected :
    ∃ r, collect emptyObjectHeap {} {} (visitAll [(.stack, ⟨4096⟩)]) = .ok r ∧
      emptyObjectHeap.Exchanged r.space := by
  obtain ⟨e, visited, -, stop, free, shape, found⟩ := visitAll_emptyObject .stack
  have trace : traceObject 4107 ⟨.pointers, 0, .normal Ref.null⟩ e = .ok ((), e) := by
    have slot : forwardClassSlot (Ref.ofOffset 4107) ⟨.pointers, 0, .normal Ref.null⟩ e =
        .ok ((), e) := rfl
    unfold traceObject
    rw [bind_of_ok slot, if_pos rfl, forwardPayload_eq, shape]
    rfl
  have objects : emptyObjectHeap.traced {} [(.stack, ⟨4096⟩)] =
      [⟨e, 4107, ⟨.pointers, 0, .normal Ref.null⟩⟩] := by
    have start : emptyObjectHeap.inactiveStart = 4107 := rfl
    rw [SemiSpaces.traced_eq visited, stop, start, traced_cons (by decide) (by omega) found trace,
      traced_nil (by decide)]
  have inside := (collect_stays_inside emptyObjectHeap_sound {} {} [(.stack, ⟨4096⟩)]).1
  rw [objects] at inside
  cases run : collect emptyObjectHeap {} {} (visitAll [(.stack, ⟨4096⟩)]) with
  | ok r =>
    rw [run] at inside
    exact ⟨r, rfl, inside⟩
  | error cause =>
    rw [run] at inside
    obtain ⟨-, object, mem, short⟩ := inside
    rw [List.mem_singleton.1 mem, Traced.isShortClass, Traced.shape, shape] at short
    cases short

/-- **A class table entry without fields.**  Its copy ends where the buffer ends, and its
    superclass is looked for behind it. -/
theorem short_class_leaves_buffer :
    collect emptyObjectHeap {} {} (visitAll [(.classTable, ⟨4096⟩)]) = .error .outOfBuffer := by
  obtain ⟨e, visited, size, stop, free, shape, found⟩ := visitAll_emptyObject .classTable
  have superclass : load (fieldOffset (Ref.ofOffset 4107) ClassField.superclass) e =
      .error .outOfBuffer := by
    have outside : ¬fieldOffset (Ref.ofOffset 4107) ClassField.superclass + 4 ≤ e.bytes.size := by
      rw [size]
      decide
    unfold load Bytes.word?
    rw [dif_neg outside]
  have trace : traceObject 4107 ⟨.pointers, 0, .normal Ref.null⟩ e = .error .outOfBuffer := by
    have slot : forwardClassSlot (Ref.ofOffset 4107) ⟨.pointers, 0, .normal Ref.null⟩ e =
        .ok ((), e) := rfl
    unfold traceObject
    rw [bind_of_ok slot, if_pos rfl, forwardPayload_eq, shape, RootKind.shape, Shape.fields,
      List.forM_cons]
    exact bind_of_error (bind_of_error superclass)
  refine collect_eq_error visited ?_
  rw [stop]
  exact (scan_eq 4118 (by decide) (by omega) found).trans (bind_of_error trace)

end ObjectMachine
