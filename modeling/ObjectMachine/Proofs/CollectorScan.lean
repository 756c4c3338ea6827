/-
  ObjectMachine/Proofs/CollectorScan.lean
  =======================================
  **Roots and scan** — the invariant from the first root to the last moved object.

  Updating a slot moves what the slot leads to and stores the new address; an object is
  scanned by updating its slots one after the other, and the scan cursor walks over the
  places of the moved objects, so that the moved objects are always a scanned list
  followed by a pending one.  When nothing is pending, every slot of every moved object is
  done, and the moved objects are exactly the reachable ones.
-/
import ObjectMachine.Proofs.Evacuation

namespace ObjectMachine.Evacuation

open ObjectGraph

variable {g : ObjectGraph} {lo hi base stop : Nat} {journal : Journal} {e : Evacuation}
  {moved : List Ref} {done : Set (Ref × Nat)}

/-- The objects of both tables have been moved, as they are once the tables have been visited. -/
def TablesMoved (g : ObjectGraph) (moved : List Ref) : Prop :=
  ∀ a ∈ g.objects, a ∈ g.roots.classes ∨ a ∈ g.roots.dictionaries → a ∈ moved

theorem TablesMoved.of_extension {moved' : List Ref} (tables : TablesMoved g moved)
    (h : moved <+: moved') : TablesMoved g moved' :=
  fun a ha table => h.subset (tables a ha table)

variable (wf : g.WellFormed lo hi) (halves : g.Halves base stop)
  (inv : Invariant g base stop journal e moved done)

/-! ### Slots that are not done -/

namespace Invariant

include inv in
/-- A range of a copy that touches no slot that is done still holds the old bytes. -/
theorem same_copy {a : Ref} (ha : a ∈ moved) {k n : Nat} (inside : k + n ≤ g.extent a)
    (clear : ∀ slot ∈ g.slots a, (a, slot.1) ∈ done → slot.1 + 4 ≤ k ∨ k + n ≤ slot.1) :
    Bytes.Same e.bytes (g.place base moved a + k) g.bytes (a.offset k) n := by
  intro i hi
  have := inv.raw a ha (k + i) (by omega) (by
    intro slot hs hd
    have := clear slot hs hd
    omega)
  rwa [← Nat.add_assoc, show a.offset (k + i) = a.offset k + i from (Nat.add_assoc _ _ _).symm]
    at this

include wf inv in
theorem word_of_not_done {a : Ref} (ha : a ∈ moved) {slot : Nat × Shape} (hs : slot ∈ g.slots a)
    (new : (a, slot.1) ∉ done) :
    e.bytes.word? (g.place base moved a + slot.1) = g.word? a slot.1 := by
  have object := inv.moved_object ha
  have aligned := wf.slot_aligned object hs
  refine (same_copy inv ha (wf.slot_inside object hs) ?_).word? 0 (by omega)
  intro other ho hd
  have aligned' := wf.slot_aligned object ho
  have ne : other.1 ≠ slot.1 := by
    intro eq
    exact new (eq ▸ hd)
  omega

include wf halves inv in
theorem header_of_not_done {a : Ref} (ha : a ∈ moved) (new : (a, Header.classOffset) ∉ done) :
    Header.read? e.bytes (Ref.ofOffset (g.place base moved a)) = g.header? a := by
  have object := inv.moved_object ha
  have long := wf.header_le_extent object
  have bounds := inv.place_bounds wf halves ha
  have := halves.stop_le_size
  have := halves.addressable
  obtain ⟨kind, size, classRef, found⟩ := wf.header object
  have same : Bytes.Same e.bytes (g.place base moved a + 0) g.bytes (a.offset 0) 11 := by
    refine same_copy inv ha (by omega) ?_
    intro slot hs hd
    have aligned := wf.slot_aligned object hs
    have ne : slot.1 ≠ 7 := by
      intro eq
      exact new (show (a, 7) ∈ done from eq ▸ hd)
    omega
  have place_offset := Ref.offset_ofOffset (show g.place base moved a < wordLimit by omega) 0
  rw [← place_offset] at same
  exact Header.read?_congr same (Nat.le_refl _) (Ref.ofOffset_ne_null (by omega))
    (ne_null_of_header? found)

/-! ### Updating a slot -/

include wf halves in
/-- A slot is done as soon as it holds the relocated word and nothing else has changed. -/
theorem update (inv : Invariant g base stop journal e moved done) {a c : Ref} (ha : a ∈ moved)
    {slot : Nat × Shape} (hs : slot ∈ g.slots a) (old : g.word? a slot.1 = some c.word)
    (target : c ∈ g.objects → c ∈ moved) (b : Bytes) (size : b.size = e.bytes.size)
    (elsewhere : ∀ p n, p + n ≤ g.place base moved a + slot.1 ∨
      g.place base moved a + slot.1 + 4 ≤ p → Bytes.Same b p e.bytes p n)
    (word : b.word? (g.place base moved a + slot.1) = some (g.relocate base moved c).word) :
    Invariant g base stop journal { e with bytes := b } moved (insert (a, slot.1) done) := by
  have object := inv.moved_object ha
  have aligned := wf.slot_aligned object hs
  have inside := wf.slot_inside object hs
  have bounds := inv.place_bounds wf halves ha
  have halves_apart := halves.apart
  refine
    { fromStart_eq := inv.fromStart_eq
      fromTop_eq := inv.fromTop_eq
      toEnd_eq := inv.toEnd_eq
      size_eq := size.trans inv.size_eq
      free_eq := inv.free_eq
      quiet := inv.quiet
      nodup := inv.nodup
      reachable := inv.reachable
      done_moved := ?done_moved
      intact := ?intact
      stub := ?stub
      raw := ?raw
      slot := ?slot
      shape := inv.shape
      below := inv.below }
  case done_moved =>
    rintro p (rfl | hp)
    · exact ha
    · exact inv.done_moved p hp
  case intact =>
    intro d hd new
    refine (elsewhere _ _ ?_).trans (inv.intact d hd new)
    have low := wf.low d hd
    have high := wf.high d hd
    have stop_d : d.offset (g.extent d) = d.offset 0 + g.extent d := rfl
    omega
  case stub =>
    intro d hd header found
    have object_d := inv.moved_object hd
    have low := wf.low d object_d
    have high := wf.high d object_d
    have long := wf.header_le_extent object_d
    have stop_d : d.offset (g.extent d) = d.offset 0 + g.extent d := rfl
    have nonnull := ne_null_of_header? found
    have same := elsewhere (d.offset 0) 11 (by omega)
    rw [Header.read?_congr same (Nat.le_refl _) nonnull nonnull]
    exact inv.stub d hd header found
  case raw =>
    intro d hd i hi outside
    refine (elsewhere (g.place base moved d + i) 1 ?_ 0 (by omega)).trans
      (inv.raw d hd i hi fun other ho hdone => outside other ho (Set.mem_insert_of_mem _ hdone))
    by_cases same : d = a
    · subst same
      have := outside slot hs (Set.mem_insert _ _)
      omega
    · have apart : g.place base moved d + g.extent d ≤ g.place base moved a ∨
          g.place base moved a + g.extent a ≤ g.place base moved d := place_apart hd ha same
      omega
  case slot =>
    intro d hd other ho hdone c' hw
    by_cases same : (d, other.1) = (a, slot.1)
    · obtain ⟨rfl, offset⟩ := Prod.mk.inj same
      rw [offset] at hw ⊢
      have : c' = c := by
        rw [old] at hw
        cases c
        cases c'
        cases hw
        rfl
      subst this
      exact ⟨word, target⟩
    · have hdone : (d, other.1) ∈ done := Set.mem_of_mem_insert_of_ne hdone same
      obtain ⟨word', target'⟩ := inv.slot d hd other ho hdone c' hw
      refine ⟨?_, target'⟩
      rw [← word']
      refine (elsewhere (g.place base moved d + other.1) 4 ?_).word? 0 (by omega)
      have object_d := inv.moved_object hd
      have aligned' := wf.slot_aligned object_d ho
      have inside' := wf.slot_inside object_d ho
      by_cases eq : d = a
      · subst eq
        have ne : other.1 ≠ slot.1 := fun h => same (by rw [h])
        omega
      · have apart : g.place base moved d + g.extent d ≤ g.place base moved a ∨
          g.place base moved a + g.extent a ≤ g.place base moved d := place_apart hd ha eq
        omega

end Invariant

/-! ### Tracing a slot -/

theorem load_of_word {offset : Nat} {w : Word} (h : e.bytes.word? offset = some w) :
    load offset e = .ok (w, e) := by
  unfold load
  rw [h]

include halves in
theorem stray_null : Stray g.start g.top Ref.null := by
  have := halves.top_le_size
  have := halves.addressable
  have null : Ref.null.offset 0 = wordLimit - 1 := rfl
  unfold Stray
  omega

include wf halves in
/-- What a slot leads to is an object whose shape is settled, or no object at all. -/
theorem slot_target (tables : TablesMoved g moved) {a c : Ref} (ha : a ∈ g.objects)
    {slot : Nat × Shape} (hs : slot ∈ g.slots a) (word : g.word? a slot.1 = some c.word) :
    (c ∈ g.objects ∧ (c ∈ moved ∨ slot.2 = g.roots.shapeOf c)) ∨
      (c ∉ g.objects ∧ Stray g.start g.top c) := by
  have allowed := wf.slot a ha slot hs c.word word
  by_cases object : c ∈ g.objects
  · refine Or.inl ⟨object, ?_⟩
    have nonnull : c ≠ Ref.null := by
      obtain ⟨kind, size, classRef, found⟩ := wf.header object
      exact ne_null_of_header? found
    cases shape : slot.2 with
    | classObject =>
      rw [shape] at allowed
      exact Or.inl (tables c object (Or.inl (allowed.resolve_left nonnull)))
    | dictionary =>
      rw [shape] at allowed
      exact Or.inl (tables c object (Or.inr (allowed.resolve_left nonnull)))
    | ordinary =>
      by_cases table : c ∈ g.roots.classes ∨ c ∈ g.roots.dictionaries
      · exact Or.inl (tables c object table)
      · rw [not_or] at table
        right
        rw [RootSlots.shapeOf, if_neg table.1, if_neg table.2]
  · refine Or.inr ⟨object, ?_⟩
    have root_stray : c ∈ g.roots.all → Stray g.start g.top c := fun mem =>
      wf.stray ((wf.root c mem).resolve_left object)
    unfold RootSlots.all at root_stray
    cases shape : slot.2 with
    | classObject =>
      rw [shape] at allowed
      rcases allowed with null | table
      · rw [show c = Ref.null from null]
        exact stray_null halves
      · exact root_stray (List.mem_append_left _ (List.mem_append_left _ table))
    | dictionary =>
      rw [shape] at allowed
      rcases allowed with null | table
      · rw [show c = Ref.null from null]
        exact stray_null halves
      · exact root_stray (List.mem_append_left _ (List.mem_append_right _ table))
    | ordinary =>
      rw [shape] at allowed
      exact wf.stray (allowed.resolve_left object)

include wf halves in
/-- A slot that leads to no object is done as it is. -/
theorem Invariant.skip (inv : Invariant g base stop journal e moved done) {a c : Ref} (ha : a ∈ moved)
    {slot : Nat × Shape} (hs : slot ∈ g.slots a) (new : (a, slot.1) ∉ done)
    (word : g.word? a slot.1 = some c.word) (object : c ∉ g.objects) :
    Invariant g base stop journal e moved (insert (a, slot.1) done) := by
  refine inv.update wf halves ha hs word (fun h => absurd h object) e.bytes rfl
    (fun p n _ => Bytes.Same.refl _ _ _) ?_
  rw [inv.word_of_not_done wf ha hs new, word, relocate_of_not_mem object]

include wf halves in
/-- A slot is done once the new address of what it leads to is stored in it. -/
theorem Invariant.store (inv : Invariant g base stop journal e moved done) {a c : Ref} (ha : a ∈ moved)
    {slot : Nat × Shape} (hs : slot ∈ g.slots a) (word : g.word? a slot.1 = some c.word)
    (object : c ∈ g.objects) (target : c ∈ moved) :
    ∃ e', Invariant g base stop journal e' moved (insert (a, slot.1) done) ∧
      Evacuation.store (g.place base moved a + slot.1)
        (Ref.ofOffset (g.place base moved c)).word.bytes e = .ok ((), e') := by
  have bounds := inv.place_bounds wf halves ha
  have inside := wf.slot_inside (inv.moved_object ha) hs
  have fits : g.place base moved a + slot.1 + 4 ≤ e.bytes.size := by
    have := halves.stop_le_size
    have := inv.size_eq
    omega
  refine ⟨_, ?_, store_of_fits (by rw [Word.length_bytes]; exact fits)⟩
  refine inv.update wf halves ha hs word (fun _ => target) _ (Bytes.size_overwrite _ _ _) ?_ ?_
  · intro p n apart
    refine Bytes.same_overwrite _ _ _ _ _ (by rw [Word.length_bytes]; exact fits) ?_
    rw [Word.length_bytes]
    exact apart
  · rw [Bytes.word?_overwrite_self _ _ _ fits, relocate_of_mem object]

include wf halves in
/-- **One slot.**  Moving what a slot leads to and storing where it went makes the slot done;
    a word that leads to no object is reported and stays. -/
theorem trace_spec (inv : Invariant g base stop journal e moved done) (tables : TablesMoved g moved)
    {a c : Ref} (ha : a ∈ moved) {slot : Nat × Shape} (hs : slot ∈ g.slots a)
    (new : (a, slot.1) ∉ done) (word : g.word? a slot.1 = some c.word) (event : Event)
    (other : ∀ d, event ≠ .spaceExhausted d) :
    ∃ e' moved', moved <+: moved' ∧
      Invariant g base stop journal e' moved' (insert (a, slot.1) done) ∧
      (evacuate c slot.2 >>= fun result =>
        match result with
        | some target => Evacuation.store (g.place base moved a + slot.1) target.word.bytes
        | none => note event) e = .ok ((), e') := by
  rcases slot_target wf halves tables (inv.moved_object ha) hs word with
    ⟨mem, known⟩ | ⟨absent, stray⟩
  · have reach : g.Reachable c := .slot (inv.reachable a ha) hs word mem
    obtain ⟨e₁, moved₁, more, inv₁, target, run⟩ := evacuate_object wf halves inv reach known
    obtain ⟨e₂, inv₂, stored⟩ := inv₁.store wf halves (more.subset ha) hs word mem target
    refine ⟨e₂, moved₁, more, inv₂, ?_⟩
    rw [bind_of_ok run, ← place_of_extension more ha]
    exact stored
  · rw [← inv.fromStart_eq, ← inv.fromTop_eq] at stray
    refine ⟨_, moved, List.prefix_refl _,
      (inv.skip wf halves ha hs new word absent).note event other, ?_⟩
    rw [bind_of_ok (evacuate_stray slot.2 stray)]
    rfl

include wf halves in
theorem Invariant.word_in_slot (inv : Invariant g base stop journal e moved done) {a : Ref}
    (ha : a ∈ moved) {slot : Nat × Shape} (hs : slot ∈ g.slots a) :
    ∃ c : Ref, g.word? a slot.1 = some c.word := by
  have object := inv.moved_object ha
  have inside := wf.slot_inside object hs
  have high := wf.high a object
  have := halves.top_le_size
  have stop_a : a.offset (g.extent a) = a.offset 0 + g.extent a := rfl
  have at_slot : a.offset slot.1 = a.offset 0 + slot.1 := rfl
  obtain ⟨w, word⟩ := (Bytes.word?_eq_some_iff_le g.bytes (a.offset slot.1)).2 (by omega)
  exact ⟨⟨w⟩, word⟩

include wf halves in
theorem Invariant.offset_place (inv : Invariant g base stop journal e moved done) {a : Ref}
    (ha : a ∈ moved) (n : Nat) :
    (Ref.ofOffset (g.place base moved a)).offset n = g.place base moved a + n := by
  have bounds := inv.place_bounds wf halves ha
  have := wf.header_le_extent (inv.moved_object ha)
  have := halves.stop_le_size
  have := halves.addressable
  exact Ref.offset_ofOffset (by omega) n

/-! ### Tracing an object -/

include wf halves in
theorem forwardField_spec (inv : Invariant g base stop journal e moved done)
    (tables : TablesMoved g moved) {a : Ref} (ha : a ∈ moved) {index : Nat} {shape : Shape}
    (hs : (11 + index * 4, shape) ∈ g.slots a) (new : (a, 11 + index * 4) ∉ done) :
    ∃ e' moved', moved <+: moved' ∧
      Invariant g base stop journal e' moved' (insert (a, 11 + index * 4) done) ∧
      forwardField (Ref.ofOffset (g.place base moved a)) index shape e = .ok ((), e') := by
  obtain ⟨c, word⟩ := inv.word_in_slot wf halves ha hs
  have loaded := inv.word_of_not_done wf ha hs new
  rw [word] at loaded
  unfold forwardField
  rw [show fieldOffset (Ref.ofOffset (g.place base moved a)) index =
    g.place base moved a + (11 + index * 4) from inv.offset_place wf halves ha _,
    bind_of_ok (load_of_word loaded)]
  by_cases null : c.isNull = true
  · have absent : c ∉ g.objects := (Ref.isNull_iff c).1 null ▸ wf.null_not_object
    refine ⟨e, moved, List.prefix_refl _, inv.skip wf halves ha hs new word absent, ?_⟩
    rw [if_pos null]
    rfl
  · rw [if_neg null]
    refine trace_spec wf halves inv tables ha hs new word
      (.fieldNotObject index (Ref.ofOffset (g.place base moved a)) c) ?_
    intro d eq
    cases eq

include wf halves in
/-- The class slot, whose word the collector takes from the header that it has read. -/
theorem forwardClassSlot_spec (inv : Invariant g base stop journal e moved done)
    (tables : TablesMoved g moved) {a : Ref} (ha : a ∈ moved) {header : Header}
    (found : g.header? a = some header) (new : (a, Header.classOffset) ∉ done) :
    ∃ e' moved', moved <+: moved' ∧
      Invariant g base stop journal e' moved' (insert (a, Header.classOffset) done) ∧
      forwardClassSlot (Ref.ofOffset (g.place base moved a)) header e = .ok ((), e') := by
  have hs : (Header.classOffset, Shape.classObject) ∈ g.slots a := by
    rw [slots_eq found]
    exact List.mem_cons_self
  obtain ⟨kind, size, c, found'⟩ := wf.header (inv.moved_object ha)
  rw [found] at found'
  cases found'
  have word : g.word? a Header.classOffset = some c.word :=
    ((Header.read?_eq_some_iff _ _ _).1 found).2.2.2.2.2
  unfold forwardClassSlot
  dsimp only [Header.classRef?, Option.bind_some, Ref.nonNull?]
  by_cases null : c.isNull = true
  · have absent : c ∉ g.objects := (Ref.isNull_iff c).1 null ▸ wf.null_not_object
    refine ⟨e, moved, List.prefix_refl _, inv.skip wf halves ha hs new word absent, ?_⟩
    rw [if_pos null]
    rfl
  · rw [if_neg null]
    dsimp only
    rw [inv.offset_place wf halves ha]
    refine trace_spec wf halves inv tables ha hs new word
      (.classNotObject (Ref.ofOffset (g.place base moved a)) c) ?_
    intro d eq
    cases eq

include wf halves in
/-- The fields of an ordinary object, from `start` on. -/
theorem forwardFields_spec (count : Nat) : ∀ {e : Evacuation} {moved : List Ref} {done : Set (Ref × Nat)}
    (start : Nat) {a : Ref}, Invariant g base stop journal e moved done → TablesMoved g moved →
    a ∈ moved →
    (∀ i, start ≤ i → i < start + count → (11 + i * 4, Shape.ordinary) ∈ g.slots a) →
    (∀ i, start ≤ i → (a, 11 + i * 4) ∉ done) →
    ∃ e' moved', moved <+: moved' ∧
      Invariant g base stop journal e' moved'
        (done ∪ {p | p.1 = a ∧ ∃ i, start ≤ i ∧ i < start + count ∧ p.2 = 11 + i * 4}) ∧
      forwardFields (Ref.ofOffset (g.place base moved a)) start count e = .ok ((), e') := by
  induction count with
  | zero =>
    intro e moved done start a inv tables ha _ _
    refine ⟨e, moved, List.prefix_refl _, ?_, rfl⟩
    convert inv using 1
    ext p
    constructor
    · rintro (hp | ⟨-, i, low, high, -⟩)
      · exact hp
      · omega
    · exact Or.inl
  | succ count ih =>
    intro e moved done start a inv tables ha slots new
    obtain ⟨e₁, moved₁, more₁, inv₁, run₁⟩ := forwardField_spec wf halves inv tables ha
      (slots start (by omega) (by omega)) (new start (by omega))
    obtain ⟨e₂, moved₂, more₂, inv₂, run₂⟩ := ih (start + 1) inv₁ (tables.of_extension more₁)
      (more₁.subset ha) (fun i low high => slots i (by omega) (by omega)) (by
        intro i low hi
        rcases hi with eq | hi
        · have := (Prod.mk.inj eq).2
          omega
        · exact new i (by omega) hi)
    refine ⟨e₂, moved₂, more₁.trans more₂, ?_, ?_⟩
    · convert inv₂ using 1
      ext p
      constructor
      · rintro (hp | ⟨owner, i, low, high, offset⟩)
        · exact Or.inl (Or.inr hp)
        · by_cases first : i = start
          · exact Or.inl (Or.inl (Prod.ext owner (first ▸ offset)))
          · exact Or.inr ⟨owner, i, by omega, by omega, offset⟩
      · rintro ((rfl | hp) | ⟨owner, i, low, high, offset⟩)
        · exact Or.inr ⟨rfl, start, by omega, by omega, rfl⟩
        · exact Or.inl hp
        · exact Or.inr ⟨owner, i, by omega, by omega, offset⟩
    · rw [forwardFields, bind_of_ok run₁, ← place_of_extension more₁ ha]
      exact run₂

/-- The slots of one object. -/
def slotsOf (g : ObjectGraph) (a : Ref) : Set (Ref × Nat) :=
  {p | p.1 = a ∧ ∃ slot ∈ g.slots a, slot.1 = p.2}

include wf halves in
/-- The reference fields of a class. -/
theorem forwardClass_spec (inv : Invariant g base stop journal e moved done)
    (tables : TablesMoved g moved) {a : Ref} (ha : a ∈ moved) {header : Header}
    (found : g.header? a = some header) (pointers : header.kind = .pointers)
    (shape : g.roots.shapeOf a = .classObject) (class_done : (a, Header.classOffset) ∈ done)
    (new : ∀ i, (a, 11 + i * 4) ∉ done) :
    ∃ e' moved', moved <+: moved' ∧ Invariant g base stop journal e' moved' (done ∪ slotsOf g a) ∧
      forwardClass (Ref.ofOffset (g.place base moved a)) e = .ok ((), e') := by
  have slots : g.slots a = [(Header.classOffset, .classObject),
      (11 + ClassField.superclass * 4, .classObject), (11 + ClassField.metaclass * 4, .classObject),
      (11 + ClassField.methods * 4, .dictionary)] := by
    rw [slots_eq found, shape]
    unfold Shape.slots
    rw [if_pos pointers]
  obtain ⟨e₁, moved₁, more₁, inv₁, run₁⟩ := forwardField_spec wf halves inv tables ha
    (show (11 + ClassField.superclass * 4, Shape.classObject) ∈ g.slots a by simp [slots])
    (new ClassField.superclass)
  obtain ⟨e₂, moved₂, more₂, inv₂, run₂⟩ := forwardField_spec wf halves inv₁
    (tables.of_extension more₁) (more₁.subset ha)
    (show (11 + ClassField.metaclass * 4, Shape.classObject) ∈ g.slots a by simp [slots])
    (by
      rintro (eq | old)
      · cases (Prod.mk.inj eq).2
      · exact new _ old)
  obtain ⟨e₃, moved₃, more₃, inv₃, run₃⟩ := forwardField_spec wf halves inv₂
    ((tables.of_extension more₁).of_extension more₂) (more₂.subset (more₁.subset ha))
    (show (11 + ClassField.methods * 4, Shape.dictionary) ∈ g.slots a by simp [slots])
    (by
      rintro (eq | eq | old)
      · cases (Prod.mk.inj eq).2
      · cases (Prod.mk.inj eq).2
      · exact new _ old)
  refine ⟨e₃, moved₃, (more₁.trans more₂).trans more₃, ?_, ?_⟩
  · convert inv₃ using 1
    ext p
    constructor
    · rintro (hp | ⟨owner, slot, hs, offset⟩)
      · exact Or.inr (Or.inr (Or.inr hp))
      · rw [slots] at hs
        simp only [List.mem_cons, List.not_mem_nil, or_false] at hs
        rcases hs with rfl | rfl | rfl | rfl
        · have p_eq : p = (a, Header.classOffset) := Prod.ext owner offset.symm
          exact Or.inr (Or.inr (Or.inr (p_eq ▸ class_done)))
        · exact Or.inr (Or.inr (Or.inl (Prod.ext owner offset.symm)))
        · exact Or.inr (Or.inl (Prod.ext owner offset.symm))
        · exact Or.inl (Prod.ext owner offset.symm)
    · rintro (rfl | rfl | rfl | hp)
      · exact Or.inr ⟨rfl, (11 + ClassField.methods * 4, .dictionary), by simp [slots], rfl⟩
      · exact Or.inr ⟨rfl, (11 + ClassField.metaclass * 4, .classObject), by simp [slots], rfl⟩
      · exact Or.inr ⟨rfl, (11 + ClassField.superclass * 4, .classObject), by simp [slots], rfl⟩
      · exact Or.inl hp
  · rw [place_of_extension more₁ ha] at run₂
    rw [place_of_extension (more₁.trans more₂) ha] at run₃
    unfold forwardClass
    rw [bind_of_ok run₁, bind_of_ok run₂]
    exact run₃

include wf halves in
/-- The fields of an object, by its shape. -/
theorem forwardPayload_spec (inv : Invariant g base stop journal e moved done)
    (tables : TablesMoved g moved) {a : Ref} (ha : a ∈ moved) {header : Header}
    (found : g.header? a = some header) (pointers : header.kind = .pointers)
    (class_done : (a, Header.classOffset) ∈ done) (new : ∀ i, (a, 11 + i * 4) ∉ done) :
    ∃ e' moved', moved <+: moved' ∧ Invariant g base stop journal e' moved' (done ∪ slotsOf g a) ∧
      forwardPayload (g.place base moved a) header e = .ok ((), e') := by
  unfold forwardPayload
  rw [get_bind, inv.shape a ha]
  cases shape : g.roots.shapeOf a with
  | classObject => exact forwardClass_spec wf halves inv tables ha found pointers shape class_done new
  | dictionary =>
    have slots : g.slots a = [(Header.classOffset, .classObject)] := by
      rw [slots_eq found, shape]
      unfold Shape.slots
      rw [if_pos pointers]
    refine ⟨e, moved, List.prefix_refl _, ?_, rfl⟩
    convert inv using 1
    refine Set.union_eq_self_of_subset_right ?_
    rintro p ⟨owner, slot, hs, offset⟩
    rw [slots, List.mem_singleton] at hs
    subst hs
    rw [show p = (a, Header.classOffset) from Prod.ext owner offset.symm]
    exact class_done
  | ordinary =>
    have slots : ∀ slot, slot ∈ g.slots a ↔ slot = (Header.classOffset, .classObject) ∨
        ∃ i, i < header.size.toNat ∧ slot = (11 + i * 4, .ordinary) := by
      intro slot
      rw [slots_eq found, shape]
      unfold Shape.slots
      rw [if_pos pointers, List.mem_cons, List.mem_map]
      refine or_congr_right ⟨?_, ?_⟩
      · rintro ⟨i, hi, rfl⟩
        exact ⟨i, List.mem_range.1 hi, rfl⟩
      · rintro ⟨i, hi, rfl⟩
        exact ⟨i, List.mem_range.2 hi, rfl⟩
    obtain ⟨e', moved', more, inv', run⟩ := forwardFields_spec wf halves header.size.toNat 0 inv
      tables ha (fun i _ hi => (slots _).2 (Or.inr ⟨i, by omega, rfl⟩)) (fun i _ => new i)
    refine ⟨e', moved', more, ?_, run⟩
    convert inv' using 1
    ext p
    constructor
    · rintro (hp | ⟨owner, slot, hs, offset⟩)
      · exact Or.inl hp
      · rcases (slots slot).1 hs with rfl | ⟨i, hi, rfl⟩
        · have p_eq : p = (a, Header.classOffset) := Prod.ext owner offset.symm
          exact Or.inl (p_eq ▸ class_done)
        · exact Or.inr ⟨owner, i, by omega, by omega, offset.symm⟩
    · rintro (hp | ⟨owner, i, -, hi, offset⟩)
      · exact Or.inl hp
      · exact Or.inr ⟨owner, (11 + i * 4, .ordinary), (slots _).2 (Or.inr ⟨i, by omega, rfl⟩),
          offset.symm⟩

include wf halves in
/-- **One object.**  Tracing a moved object makes all of its slots done. -/
theorem traceObject_spec (inv : Invariant g base stop journal e moved done)
    (tables : TablesMoved g moved) {a : Ref} (ha : a ∈ moved) {header : Header}
    (found : g.header? a = some header) (new : ∀ n, (a, n) ∉ done) :
    ∃ e' moved', moved <+: moved' ∧ Invariant g base stop journal e' moved' (done ∪ slotsOf g a) ∧
      ∀ next : Run Unit,
        (do
          forwardClassSlot (Ref.ofOffset (g.place base moved a)) header
          if header.kind = ObjectKind.pointers then forwardPayload (g.place base moved a) header
          next) e = next e' := by
  obtain ⟨e₁, moved₁, more₁, inv₁, run₁⟩ :=
    forwardClassSlot_spec wf halves inv tables ha found (new _)
  have fields_new : ∀ i, (a, 11 + i * 4) ∉ insert (a, Header.classOffset) done := by
    rintro i (eq | old)
    · have offset := (Prod.mk.inj eq).2
      simp only [Header.classOffset] at offset
      omega
    · exact new _ old
  have class_slot : (a, Header.classOffset) ∈ slotsOf g a := by
    refine ⟨rfl, (Header.classOffset, .classObject), ?_, rfl⟩
    rw [slots_eq found]
    exact List.mem_cons_self
  by_cases pointers : header.kind = .pointers
  · obtain ⟨e₂, moved₂, more₂, inv₂, run₂⟩ := forwardPayload_spec wf halves inv₁
      (tables.of_extension more₁) (more₁.subset ha) found pointers (Set.mem_insert _ _) fields_new
    rw [place_of_extension more₁ ha] at run₂
    refine ⟨e₂, moved₂, more₁.trans more₂, ?_, ?_⟩
    · convert inv₂ using 1
      rw [Set.insert_union, Set.insert_eq_of_mem (Set.mem_union_right _ class_slot)]
    · intro next
      rw [bind_of_ok run₁, if_pos pointers]
      exact bind_of_ok run₂
  · refine ⟨e₁, moved₁, more₁, ?_, ?_⟩
    · convert inv₁ using 1
      have slots : g.slots a = [(Header.classOffset, .classObject)] := by
        rw [slots_eq found]
        unfold Shape.slots
        rw [if_neg pointers]
      ext p
      constructor
      · rintro (hp | ⟨owner, slot, hs, offset⟩)
        · exact Or.inr hp
        · rw [slots, List.mem_singleton] at hs
          subst hs
          exact Or.inl (Prod.ext owner offset.symm)
      · rintro (rfl | hp)
        · exact Or.inr class_slot
        · exact Or.inl hp
    · intro next
      rw [bind_of_ok run₁, if_neg pointers]

/-! ### The scan -/

include wf halves in
/-- **The scan.**  From a scanned list followed by a pending one, the scan reaches a state in
    which every slot of every moved object is done. -/
theorem scan_spec : ∀ {e : Evacuation} {scanned pending : List Ref},
    Invariant g base stop journal e (scanned ++ pending) {p | p.1 ∈ scanned} →
    TablesMoved g (scanned ++ pending) →
    ∃ e' moved', scanned ++ pending <+: moved' ∧
      Invariant g base stop journal e' moved' {p | p.1 ∈ moved'} ∧
      scan stop (base + (scanned.map g.extent).sum) e = .ok ((), e') := by
  -- the distance of the scan cursor from the end of the half bounds the objects to come
  suffices h : ∀ n, ∀ {e : Evacuation} {scanned pending : List Ref},
      stop - (base + (scanned.map g.extent).sum) < n →
      Invariant g base stop journal e (scanned ++ pending) {p | p.1 ∈ scanned} →
      TablesMoved g (scanned ++ pending) →
      ∃ e' moved', scanned ++ pending <+: moved' ∧
        Invariant g base stop journal e' moved' {p | p.1 ∈ moved'} ∧
        scan stop (base + (scanned.map g.extent).sum) e = .ok ((), e') by
    intro e scanned pending
    exact h _ (Nat.lt_succ_self _)
  intro n
  induction n with
  | zero =>
    intro e scanned pending bound
    exact absurd bound (Nat.not_lt_zero _)
  | succ n ih =>
    intro e scanned pending bound inv tables
    rw [scan]
    cases pending with
    | nil =>
      rw [List.append_nil] at inv tables ⊢
      refine ⟨e, scanned, List.prefix_refl _, inv, ?_⟩
      have caught_up := inv.free_eq
      split
      · rw [get_bind, if_neg (by omega)]
        rfl
      · rfl
    | cons a rest =>
      have ha : a ∈ scanned ++ a :: rest := List.mem_append_right _ List.mem_cons_self
      have new : a ∉ scanned := by
        intro mem
        exact (List.nodup_append.1 inv.nodup).2.2 a mem a List.mem_cons_self rfl
      have object := inv.moved_object ha
      have long := wf.header_le_extent object
      obtain ⟨kind, size, classRef, found⟩ := wf.header object
      have place_a : g.place base (scanned ++ a :: rest) a = base + (scanned.map g.extent).sum :=
        place_next new
      have bounds := inv.place_bounds wf halves ha
      have header := inv.header_of_not_done wf halves ha new
      rw [place_a, found] at header
      obtain ⟨e₁, moved₁, more₁, inv₁, run₁⟩ := traceObject_spec wf halves inv tables ha found
        fun _ => new
      obtain ⟨added, rfl⟩ := more₁
      rw [List.append_assoc, List.cons_append, ← List.singleton_append, ← List.append_assoc] at inv₁
      -- the slots that are done are now those of one more object
      have inv₁ : Invariant g base stop journal e₁ (scanned ++ [a] ++ (rest ++ added))
          {p | p.1 ∈ scanned ++ [a]} := by
        refine inv₁.of_done ?_ ?_
        · intro c hc slot hs
          rw [Set.mem_ofPred_eq, List.mem_append, List.mem_singleton]
          refine or_congr_right ⟨?_, fun h => h.1⟩
          rintro rfl
          exact ⟨rfl, slot, hs, rfl⟩
        · intro p hp
          exact List.mem_append_left _ hp
      have tables₁ : TablesMoved g (scanned ++ [a] ++ (rest ++ added)) := by
        refine tables.of_extension ⟨added, ?_⟩
        simp only [List.append_assoc, List.cons_append, List.nil_append]
      have sum₁ : ((scanned ++ [a]).map g.extent).sum = (scanned.map g.extent).sum + g.extent a := by
        rw [List.map_append, List.sum_append, List.map_singleton, List.sum_singleton]
      obtain ⟨e₂, moved₂, more₂, inv₂, run₂⟩ := ih (by omega) inv₁ tables₁
      refine ⟨e₂, moved₂, ?_, inv₂, ?_⟩
      · refine List.IsPrefix.trans ⟨added, ?_⟩ more₂
        simp only [List.append_assoc, List.cons_append, List.nil_append]
      · rw [dif_pos (by omega), get_bind, if_pos (by omega), get_bind, header]
        rw [place_a] at run₁
        rw [sum₁, ← Nat.add_assoc, extent_eq found] at run₂
        exact (run₁ _).trans run₂

/-- When every slot is done, the moved objects are the reachable ones. -/
theorem Invariant.mem_moved_iff (inv : Invariant g base stop journal e moved {p | p.1 ∈ moved})
    (roots : ∀ a ∈ g.roots.all, a ∈ g.objects → a ∈ moved) (a : Ref) :
    a ∈ moved ↔ g.Reachable a := by
  refine ⟨inv.reachable a, ?_⟩
  intro reach
  induction reach with
  | root root object => exact roots _ root object
  | slot _ hs word object ih => exact (inv.slot _ ih _ hs ih _ word).2 object

/-! ### Roots -/

include wf halves in
/-- **One root.**  Visiting a root slot moves what it leads to and gives its relocated value. -/
theorem forwardRoot_spec (inv : Invariant g base stop journal e moved done) {a : Ref} (kind : RootKind)
    (root : a ∈ g.roots.all) (known : a ∈ g.objects → a ∈ moved ∨ kind.shape = g.roots.shapeOf a) :
    ∃ e' moved', moved <+: moved' ∧ Invariant g base stop journal e' moved' done ∧
      (a ∈ g.objects → a ∈ moved') ∧
      forwardRoot kind a e = .ok (g.relocate base moved' a, e') := by
  unfold forwardRoot
  by_cases object : a ∈ g.objects
  · have nonnull : ¬a.isNull = true := by
      intro null
      exact wf.null_not_object ((Ref.isNull_iff a).1 null ▸ object)
    obtain ⟨e', moved', more, inv', target, run⟩ :=
      evacuate_object wf halves inv (.root root object) (known object)
    refine ⟨e', moved', more, inv', fun _ => target, ?_⟩
    rw [if_neg nonnull, bind_of_ok run, relocate_of_mem object]
    rfl
  · have stray := wf.stray ((wf.root a root).resolve_left object)
    rw [← inv.fromStart_eq, ← inv.fromTop_eq] at stray
    by_cases null : a.isNull = true
    · refine ⟨e, moved, List.prefix_refl _, inv, fun h => absurd h object, ?_⟩
      rw [if_pos null, relocate_of_not_mem object]
      rfl
    · rw [if_neg null]
      by_cases reported : kind ≠ .stack
      · refine ⟨_, moved, List.prefix_refl _, inv.note (.rootNotObject kind a) ?_,
          fun h => absurd h object, ?_⟩
        · intro c eq
          cases eq
        · rw [bind_of_ok (evacuate_stray kind.shape stray)]
          dsimp only
          rw [if_pos reported, relocate_of_not_mem object]
          rfl
      · refine ⟨e, moved, List.prefix_refl _, inv, fun h => absurd h object, ?_⟩
        rw [bind_of_ok (evacuate_stray kind.shape stray)]
        dsimp only
        rw [if_neg reported, relocate_of_not_mem object]
        rfl

include wf halves in
/-- A list of roots of one kind. -/
theorem mapM_forwardRoot_spec (kind : RootKind) (slots : List Ref) :
    ∀ {e : Evacuation} {moved : List Ref}, Invariant g base stop journal e moved done →
    (∀ a ∈ slots, a ∈ g.roots.all) →
    (∀ a ∈ slots, a ∈ g.objects → a ∈ moved ∨ kind.shape = g.roots.shapeOf a) →
    ∃ e' moved', moved <+: moved' ∧ Invariant g base stop journal e' moved' done ∧
      (∀ a ∈ slots, a ∈ g.objects → a ∈ moved') ∧
      slots.mapM (forwardRoot kind) e = .ok (slots.map (g.relocate base moved'), e') := by
  induction slots with
  | nil =>
    intro e moved inv _ _
    refine ⟨e, moved, List.prefix_refl _, inv, ?_, rfl⟩
    intro a mem
    cases mem
  | cons a rest ih =>
    intro e moved inv roots known
    obtain ⟨e₁, moved₁, more₁, inv₁, target₁, run₁⟩ := forwardRoot_spec wf halves inv kind
      (roots a List.mem_cons_self) (known a List.mem_cons_self)
    obtain ⟨e₂, moved₂, more₂, inv₂, target₂, run₂⟩ := ih inv₁
      (fun c hc => roots c (List.mem_cons_of_mem _ hc))
      (fun c hc object => (known c (List.mem_cons_of_mem _ hc) object).imp_left (more₁.subset ·))
    refine ⟨e₂, moved₂, more₁.trans more₂, inv₂, ?_, ?_⟩
    · intro c hc object
      rcases List.mem_cons.1 hc with rfl | hc
      · exact more₂.subset (target₁ object)
      · exact target₂ c hc object
    · rw [List.mapM_cons, bind_of_ok run₁, bind_of_ok run₂, List.map_cons,
        relocate_of_extension more₂ target₁]
      rfl

theorem shape_classTable {a : Ref} (table : a ∈ g.roots.classes) :
    RootKind.classTable.shape = g.roots.shapeOf a := by
  rw [RootSlots.shapeOf, if_pos table]
  rfl

include wf in
theorem shape_dictionaryTable {a : Ref} (table : a ∈ g.roots.dictionaries) (object : a ∈ g.objects) :
    RootKind.dictionaryTable.shape = g.roots.shapeOf a := by
  rw [RootSlots.shapeOf, if_neg fun h => wf.tables_apart a object h table, if_pos table]
  rfl

/-- The stack comes last, so what it leads to is ordinary or has been moved. -/
theorem shape_stack (tables : TablesMoved g moved) {a : Ref} (object : a ∈ g.objects) :
    a ∈ moved ∨ RootKind.stack.shape = g.roots.shapeOf a := by
  by_cases table : a ∈ g.roots.classes ∨ a ∈ g.roots.dictionaries
  · exact Or.inl (tables a object table)
  · rw [not_or] at table
    rw [RootSlots.shapeOf, if_neg table.1, if_neg table.2]
    exact Or.inr rfl

include wf halves in
/-- **The tables.**  Visiting them moves everything that they list, and each entry gets its
    relocated value. -/
theorem visit_tables_spec (inv : Invariant g base stop journal e moved done) :
    ∃ e₁ e' moved', moved <+: moved' ∧ Invariant g base stop journal e' moved' done ∧
      TablesMoved g moved' ∧
      g.roots.classes.mapM (forwardRoot .classTable) e =
        .ok (g.roots.classes.map (g.relocate base moved'), e₁) ∧
      g.roots.dictionaries.mapM (forwardRoot .dictionaryTable) e₁ =
        .ok (g.roots.dictionaries.map (g.relocate base moved'), e') := by
  have in_all : ∀ a, a ∈ g.roots.classes ∨ a ∈ g.roots.dictionaries → a ∈ g.roots.all := by
    intro a mem
    rw [RootSlots.all, List.mem_append, List.mem_append]
    exact Or.inl mem
  obtain ⟨e₁, moved₁, more₁, inv₁, target₁, run₁⟩ := mapM_forwardRoot_spec wf halves .classTable
    g.roots.classes inv (fun a ha => in_all a (Or.inl ha)) (fun a ha _ => Or.inr (shape_classTable ha))
  obtain ⟨e₂, moved₂, more₂, inv₂, target₂, run₂⟩ := mapM_forwardRoot_spec wf halves .dictionaryTable
    g.roots.dictionaries inv₁ (fun a ha => in_all a (Or.inr ha))
    (fun a ha object => Or.inr (shape_dictionaryTable wf ha object))
  have classes : g.roots.classes.map (g.relocate base moved₁) =
      g.roots.classes.map (g.relocate base moved₂) := by
    refine List.map_congr_left fun a ha => ?_
    exact (relocate_of_extension more₂ (target₁ a ha)).symm
  rw [classes] at run₁
  refine ⟨e₁, e₂, moved₂, more₁.trans more₂, inv₂, ?_, run₁, run₂⟩
  rintro a object (table | table)
  · exact more₂.subset (target₁ a table object)
  · exact target₂ a table object

include wf halves in
/-- **The stack.**  Once the tables have been visited, visiting the words of the stack moves
    everything else that the roots lead to directly. -/
theorem visit_stack_spec (inv : Invariant g base stop journal e moved done)
    (tables : TablesMoved g moved) :
    ∃ e' moved', moved <+: moved' ∧ Invariant g base stop journal e' moved' done ∧
      TablesMoved g moved' ∧ (∀ a ∈ g.roots.all, a ∈ g.objects → a ∈ moved') ∧
      g.roots.stack.mapM (forwardRoot .stack) e =
        .ok (g.roots.stack.map (g.relocate base moved'), e') := by
  obtain ⟨e', moved', more, inv', target, run⟩ := mapM_forwardRoot_spec wf halves .stack
    g.roots.stack inv (fun a ha => List.mem_append_right _ ha)
    (fun a _ object => shape_stack tables object)
  refine ⟨e', moved', more, inv', tables.of_extension more, ?_, run⟩
  intro a mem object
  rw [RootSlots.all, List.mem_append, List.mem_append] at mem
  rcases mem with table | stack
  · exact more.subset (tables a object table)
  · exact target a stack object

/-- An entry of a table that has been moved stays where it is. -/
theorem map_relocate_table {moved' : List Ref} (tables : TablesMoved g moved) (more : moved <+: moved')
    {table : List Ref} (mem : ∀ a ∈ table, a ∈ g.roots.classes ∨ a ∈ g.roots.dictionaries) :
    table.map (g.relocate base moved) = table.map (g.relocate base moved') := by
  refine List.map_congr_left fun a ha => ?_
  exact (relocate_of_extension more fun object => tables a object (mem a ha)).symm

include wf halves in
/-- **All roots.**  Visiting the tables and then the stack moves everything that they lead to
    directly, and each slot gets its relocated value. -/
theorem visit_spec (inv : Invariant g base stop journal e moved done) :
    ∃ e' moved', moved <+: moved' ∧ Invariant g base stop journal e' moved' done ∧
      TablesMoved g moved' ∧ (∀ a ∈ g.roots.all, a ∈ g.objects → a ∈ moved') ∧
      g.roots.visit forwardRoot e = .ok (g.roots.map (g.relocate base moved'), e') := by
  obtain ⟨e₁, e₂, moved₂, more₂, inv₂, tables₂, run₁, run₂⟩ := visit_tables_spec wf halves inv
  obtain ⟨e₃, moved₃, more₃, inv₃, tables₃, targets, run₃⟩ := visit_stack_spec wf halves inv₂ tables₂
  refine ⟨e₃, moved₃, more₂.trans more₃, inv₃, tables₃, targets, ?_⟩
  unfold RootSlots.visit RootSlots.map
  rw [bind_of_ok run₁, bind_of_ok run₂, bind_of_ok run₃,
    map_relocate_table tables₂ more₃ fun a => Or.inl,
    map_relocate_table tables₂ more₃ fun a => Or.inr]
  rfl

end ObjectMachine.Evacuation
