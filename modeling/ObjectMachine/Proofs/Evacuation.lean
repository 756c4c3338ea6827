/-
  ObjectMachine/Proofs/Evacuation.lean
  ====================================
  **The invariant of a collection in progress** — what holds between any two moves.

  The objects that have been moved form a list, in the order of their moves.  Its prefix
  sums give the new address of each (`place`), so an address never changes when more
  objects follow.  An object that has not been moved is untouched; one that has been moved
  has left a stub behind that says where it went.  Its copy holds the same raw bytes, and
  in each slot either the old word or, once the slot is *done*, the relocated one.

  `evacuate_spec` says what one move does to the invariant, `forwardSlot` what updating
  one slot does, and everything else is a sequence of the two.
-/
import ObjectMachine.Proofs.ObjectGraph

namespace ObjectMachine

namespace Ref

theorem offset_ofOffset {p : Nat} (h : p < wordLimit) (n : Nat) :
    (Ref.ofOffset p).offset n = p + n := by
  have : (UInt32.ofNat p).toNat = p := UInt32.toNat_ofNat_of_lt' h
  rw [Ref.offset, Ref.ofOffset, this]

theorem ofOffset_ne_null {p : Nat} (h : p + 1 < wordLimit) : Ref.ofOffset p ≠ Ref.null := by
  intro eq
  have offset := offset_ofOffset (show p < wordLimit by omega) 0
  rw [eq] at offset
  have : Ref.null.offset 0 + 1 = wordLimit := rfl
  omega

end Ref

namespace ObjectGraph

/-! ### Places -/

variable (g : ObjectGraph) (base : Nat)

/-- Where a moved object goes: behind the objects that were moved before it. -/
def place (moved : List Ref) (a : Ref) : Nat :=
  base + ((moved.takeWhile (· ≠ a)).map g.extent).sum

variable {g base} {moved more : List Ref} {a c : Ref}

theorem base_le_place : base ≤ g.place base moved a := Nat.le_add_right _ _

theorem takeWhile_append_of_mem (h : a ∈ moved) :
    (moved ++ more).takeWhile (· ≠ a) = moved.takeWhile (· ≠ a) := by
  induction moved with
  | nil => cases h
  | cons x rest ih =>
    by_cases hx : x = a
    · simp [hx]
    · rcases List.mem_cons.1 h with rfl | h
      · exact absurd rfl hx
      · have := ih h
        simp only [List.cons_append, List.takeWhile_cons, ne_eq, hx, not_false_eq_true,
          decide_true, if_true] at this ⊢
        rw [this]

theorem place_append (h : a ∈ moved) : g.place base (moved ++ more) a = g.place base moved a := by
  rw [place, place, takeWhile_append_of_mem h]

theorem place_of_extension {moved' : List Ref} (h : moved <+: moved') (ha : a ∈ moved) :
    g.place base moved' a = g.place base moved a := by
  obtain ⟨more, rfl⟩ := h
  exact place_append ha

theorem place_next (h : a ∉ moved) :
    g.place base (moved ++ a :: more) a = base + (moved.map g.extent).sum := by
  have stop : (moved ++ a :: more).takeWhile (· ≠ a) = moved := by
    rw [List.takeWhile_append_of_pos]
    · simp
    · intro x hx
      simp only [ne_eq, decide_not, Bool.not_eq_eq_eq_not, Bool.not_true, decide_eq_false_iff_not]
      rintro rfl
      exact h hx
  rw [place, stop]

theorem place_add_extent_le (h : a ∈ moved) :
    g.place base moved a + g.extent a ≤ base + (moved.map g.extent).sum := by
  induction moved generalizing base with
  | nil => cases h
  | cons x rest ih =>
    by_cases hx : x = a
    · subst hx
      simp [place]
    · rcases List.mem_cons.1 h with rfl | h
      · exact absurd rfl hx
      · have := @ih (base + g.extent x) h
        simp only [place, List.takeWhile_cons, ne_eq, hx, not_false_eq_true, decide_true, if_true,
          List.map_cons, List.sum_cons] at this ⊢
        omega

/-- Two moved objects have places that do not overlap. -/
theorem place_apart (ha : a ∈ moved) (hc : c ∈ moved) (ne : a ≠ c) :
    g.place base moved a + g.extent a ≤ g.place base moved c ∨
      g.place base moved c + g.extent c ≤ g.place base moved a := by
  induction moved generalizing base with
  | nil => cases ha
  | cons x rest ih =>
    have skip : ∀ d, x ≠ d → g.place base (x :: rest) d = g.place (base + g.extent x) rest d := by
      intro d hd
      simp only [place, List.takeWhile_cons, ne_eq, hd, not_false_eq_true, decide_true, if_true,
        List.map_cons, List.sum_cons]
      omega
    have first : g.place base (x :: rest) x = base := by simp [place]
    by_cases hxa : x = a
    · subst hxa
      rw [first, skip c ne]
      exact Or.inl base_le_place
    · by_cases hxc : x = c
      · subst hxc
        rw [first, skip a hxa]
        exact Or.inr base_le_place
      · rw [skip a hxa, skip c hxc]
        rcases List.mem_cons.1 ha with rfl | ha
        · exact absurd rfl hxa
        · rcases List.mem_cons.1 hc with rfl | hc
          · exact absurd rfl hxc
          · exact ih ha hc

open Classical in
/-- The new value of a word in a slot: the new address of an object, or the old word. -/
noncomputable def relocate (g : ObjectGraph) (base : Nat) (moved : List Ref) (a : Ref) : Ref :=
  if a ∈ g.objects then Ref.ofOffset (g.place base moved a) else a

theorem relocate_of_mem (h : a ∈ g.objects) :
    g.relocate base moved a = Ref.ofOffset (g.place base moved a) := if_pos h

theorem relocate_of_not_mem (h : a ∉ g.objects) : g.relocate base moved a = a := if_neg h

theorem relocate_of_extension {moved' : List Ref} (h : moved <+: moved')
    (ha : a ∈ g.objects → a ∈ moved) : g.relocate base moved' a = g.relocate base moved a := by
  by_cases object : a ∈ g.objects
  · rw [relocate_of_mem object, relocate_of_mem object, place_of_extension h (ha object)]
  · rw [relocate_of_not_mem object, relocate_of_not_mem object]

/-- The half that is filled, from `base` to `stop`, has room for the half that is left and
    does not overlap it. -/
structure Halves (g : ObjectGraph) (base stop : Nat) : Prop where
  room : base + (g.top - g.start) ≤ stop
  stop_le_size : stop ≤ g.bytes.size
  top_le_size : g.top ≤ g.bytes.size
  apart : stop ≤ g.start ∨ g.top ≤ base
  addressable : g.bytes.size < wordLimit

end ObjectGraph

namespace Evacuation

/-! ### Running steps -/

section Run

variable {α β : Type} {e e' : Evacuation}

theorem bind_of_ok {x : Run α} {f : α → Run β} {r : α} (h : x e = .ok (r, e')) :
    (x >>= f) e = f r e' := by
  change (x e).bind (fun p => f p.1 p.2) = f r e'
  rw [h]
  rfl

theorem bind_of_error {x : Run α} {f : α → Run β} {cause : Fault} (h : x e = .error cause) :
    (x >>= f) e = .error cause := by
  change (x e).bind (fun p => f p.1 p.2) = .error cause
  rw [h]
  rfl

theorem get_bind (f : Evacuation → Run α) : ((get : Run Evacuation) >>= f) e = f e e := rfl

theorem modify_bind (f : Evacuation → Evacuation) (k : Unit → Run α) :
    ((modify f : Run Unit) >>= k) e = k () (f e) := rfl

theorem store_of_fits {offset : Nat} {xs : List UInt8} (fits : offset + xs.length ≤ e.bytes.size) :
    store offset xs e = .ok ((), { e with bytes := e.bytes.overwrite offset xs }) := if_pos fits

/-- The state after an object has been copied out. -/
def copied (e : Evacuation) (a : Ref) (n : Nat) (shape : Shape) : Evacuation :=
  { e with
    bytes := ((e.bytes.overwrite e.free (e.bytes.slice (a.offset 0) n)).overwrite
      (a.offset Header.stateOffset) [Header.stateByte (.forwarded (Ref.ofOffset e.free))]).overwrite
        (a.offset Header.classOffset) (Ref.ofOffset e.free).word.bytes
    free := e.free + n
    shapes := if shape = .ordinary then e.shapes else (e.free, shape) :: e.shapes }

theorem copyOut_eq (a : Ref) (n : Nat) (shape : Shape) (fits : a.offset n ≤ e.bytes.size)
    (room : e.free + n ≤ e.bytes.size) (header : 11 ≤ n) :
    copyOut a n shape e = .ok (Ref.ofOffset e.free, e.copied a n shape) := by
  have fits' : a.offset 0 + n ≤ e.bytes.size := fits
  have content : e.bytes.read? (a.offset 0) n = some (e.bytes.slice (a.offset 0) n) := if_pos fits'
  have length := Bytes.length_slice e.bytes (a.offset 0) n fits'
  simp only [Ref.offset] at fits'
  unfold copyOut
  rw [get_bind, get_bind]
  dsimp only
  rw [content]
  dsimp only
  rw [bind_of_ok (store_of_fits (by rw [length]; exact room)),
    bind_of_ok (store_of_fits (by
      simp only [Ref.offset, Header.stateOffset, Bytes.size_overwrite, List.length_singleton]
      omega)),
    bind_of_ok (store_of_fits (by
      simp only [Ref.offset, Header.classOffset, Bytes.size_overwrite, Word.length_bytes]
      omega)), modify_bind]
  dsimp only [copied]
  rfl

end Run

/-! ### Copying one object -/

section Copied

variable {e : Evacuation} {a : Ref} {n : Nat} {shape : Shape}

theorem bytes_copied : (e.copied a n shape).bytes =
    ((e.bytes.overwrite e.free (e.bytes.slice (a.offset 0) n)).overwrite (a.offset 2)
      [0xBB]).overwrite (a.offset 7) (Ref.ofOffset e.free).word.bytes := by
  simp only [copied, Header.stateOffset, Header.classOffset, Header.stateByte]

@[simp] theorem fromStart_copied : (e.copied a n shape).fromStart = e.fromStart := rfl
@[simp] theorem fromTop_copied : (e.copied a n shape).fromTop = e.fromTop := rfl
@[simp] theorem toEnd_copied : (e.copied a n shape).toEnd = e.toEnd := rfl
@[simp] theorem free_copied : (e.copied a n shape).free = e.free + n := rfl
@[simp] theorem journal_copied : (e.copied a n shape).journal = e.journal := rfl

@[simp] theorem size_copied : (e.copied a n shape).bytes.size = e.bytes.size := by
  simp only [copied, Bytes.size_overwrite]

/-- Bytes outside the copy and outside the stub stay what they are. -/
theorem same_copied_elsewhere (fits : a.offset n ≤ e.bytes.size) (room : e.free + n ≤ e.bytes.size)
    (header : 11 ≤ n) (p m : Nat) (copy : p + m ≤ e.free ∨ e.free + n ≤ p)
    (stub : p + m ≤ a.offset 0 ∨ a.offset 11 ≤ p) :
    Bytes.Same (e.copied a n shape).bytes p e.bytes p m := by
  have length := Bytes.length_slice e.bytes (a.offset 0) n fits
  have at2 : a.offset 2 = a.offset 0 + 2 := rfl
  have at7 : a.offset 7 = a.offset 0 + 7 := rfl
  have at11 : a.offset 11 = a.offset 0 + 11 := rfl
  have stop : a.offset n = a.offset 0 + n := rfl
  rw [bytes_copied]
  refine (Bytes.same_overwrite _ _ _ _ _ ?_ ?_).trans
    ((Bytes.same_overwrite _ _ _ _ _ ?_ ?_).trans (Bytes.same_overwrite _ _ _ _ _ ?_ ?_))
  all_goals
    simp only [Bytes.size_overwrite, Word.length_bytes, List.length_singleton, length]
    omega

/-- The copy holds the bytes of the object. -/
theorem same_copied_target (fits : a.offset n ≤ e.bytes.size) (room : e.free + n ≤ e.bytes.size)
    (header : 11 ≤ n) (apart : e.free + n ≤ a.offset 0 ∨ a.offset n ≤ e.free) :
    Bytes.Same (e.copied a n shape).bytes e.free e.bytes (a.offset 0) n := by
  have copy := Bytes.same_overwrite_slice e.bytes e.bytes (a.offset 0) e.free n fits room
  have at2 : a.offset 2 = a.offset 0 + 2 := rfl
  have at7 : a.offset 7 = a.offset 0 + 7 := rfl
  have stop : a.offset n = a.offset 0 + n := rfl
  rw [bytes_copied]
  refine (Bytes.same_overwrite _ _ _ _ _ ?_ ?_).trans
    ((Bytes.same_overwrite _ _ _ _ _ ?_ ?_).trans copy)
  all_goals
    simp only [Bytes.size_overwrite, Word.length_bytes, List.length_singleton]
    omega

/-- The stub keeps kind and size, and says where the object went. -/
theorem read?_copied_stub (fits : a.offset n ≤ e.bytes.size) (room : e.free + n ≤ e.bytes.size)
    (long : 11 ≤ n) (apart : e.free + n ≤ a.offset 0 ∨ a.offset n ≤ e.free) {header : Header}
    (found : Header.read? e.bytes a = some header) :
    Header.read? (e.copied a n shape).bytes a =
      some { header with state := .forwarded (Ref.ofOffset e.free) } := by
  obtain ⟨nonnull, marker, kind, -, size, -⟩ := (Header.read?_eq_some_iff _ _ _).1 found
  have length := Bytes.length_slice e.bytes (a.offset 0) n fits
  have offset_eq : ∀ k, a.offset k = a.offset 0 + k := fun k => rfl
  have stop := offset_eq n
  have at2 := offset_eq 2
  have at7 := offset_eq 7
  -- the two writes of the stub, after the copy, which does not reach the object
  generalize before : e.bytes.overwrite e.free (e.bytes.slice (a.offset 0) n) = b
  have size_b : b.size = e.bytes.size := by rw [← before, Bytes.size_overwrite]
  have same_b : Bytes.Same b (a.offset 0) e.bytes (a.offset 0) 11 := by
    rw [← before]
    refine Bytes.same_overwrite _ _ _ _ _ ?_ ?_ <;> rw [length] <;> omega
  have bytes_eq : (e.copied a n shape).bytes = (b.overwrite (a.offset 2) [0xBB]).overwrite
      (a.offset 7) (Ref.ofOffset e.free).word.bytes := by
    rw [bytes_copied, before]
  have fits2 : a.offset 2 + [(0xBB : UInt8)].length ≤ b.size := by
    rw [List.length_singleton]
    omega
  have fits7 : a.offset 7 + (Ref.ofOffset e.free).word.bytes.length ≤
      (b.overwrite (a.offset 2) [0xBB]).size := by
    rw [Bytes.size_overwrite, Word.length_bytes]
    omega
  have untouched : ∀ k m, k + m ≤ 2 ∨ (3 ≤ k ∧ k + m ≤ 7) →
      Bytes.Same (e.copied a n shape).bytes (a.offset k) e.bytes (a.offset k) m := by
    intro k m where_
    have atk := offset_eq k
    rw [bytes_eq]
    refine (Bytes.same_overwrite _ _ _ _ _ fits7 ?_).trans
      ((Bytes.same_overwrite _ _ _ _ _ fits2 ?_).trans ?_)
    · rw [Word.length_bytes]
      omega
    · rw [List.length_singleton]
      omega
    · exact same_b.part k m (by omega)
  refine (Header.read?_eq_some_iff _ _ _).2 ⟨nonnull, ?_, ?_, ?_, ?_, ?_⟩
  · exact (untouched 0 1 (by omega) 0 (by omega)).trans marker
  · exact (untouched 1 1 (by omega) 0 (by omega)).trans kind
  · rw [bytes_eq]
    refine (Bytes.same_overwrite _ _ _ (a.offset 2) 1 fits7 ?_ 0 (by omega)).trans ?_
    · rw [Word.length_bytes]
      omega
    · exact Bytes.getElem?_overwrite_self _ _ _ 0 fits2 (by simp)
  · exact ((untouched 3 4 (by omega)).word? 0 (by omega)).trans size
  · rw [bytes_eq]
    exact Bytes.word?_overwrite_self _ _ _ fits7

theorem shapeAt_copied_of_lt {p : Nat} (h : p < e.free) :
    (e.copied a n shape).shapeAt p = e.shapeAt p := by
  unfold shapeAt copied
  dsimp only
  split
  · rfl
  · rw [List.lookup_cons, beq_eq_false_iff_ne.2 (by omega)]

theorem shapeAt_copied_free (below : ∀ entry ∈ e.shapes, entry.1 < e.free) :
    (e.copied a n shape).shapeAt e.free = shape := by
  unfold shapeAt copied
  dsimp only
  split
  · rename_i ordinary
    have none_ : e.shapes.lookup e.free = none := by
      rw [List.lookup_eq_none_iff]
      intro entry mem
      have := below entry mem
      exact bne_iff_ne.2 (by omega)
    rw [none_, ordinary]
    rfl
  · rw [List.lookup_cons, beq_self_eq_true]
    rfl

end Copied

/-! ### The invariant -/

/-- The journal has grown, and no event says that the half being filled was exhausted. -/
def Quiet (before after : Journal) : Prop :=
  ∃ more : List Event, after.events.toList = before.events.toList ++ more ∧
    ∀ a, Event.spaceExhausted a ∉ more

theorem Quiet.note {before after : Journal} (h : Quiet before after) (event : Event)
    (other : ∀ a, event ≠ .spaceExhausted a) : Quiet before (after.note event) := by
  obtain ⟨more, events, quiet⟩ := h
  unfold Journal.note
  split
  · refine ⟨more ++ [event], ?_, ?_⟩
    · rw [Array.toList_push, events, List.append_assoc]
    · intro a mem
      rcases List.mem_append.1 mem with mem | mem
      · exact quiet a mem
      · exact other a (List.mem_singleton.1 mem).symm
  · exact ⟨more, events, quiet⟩

/-- **The invariant.**  `moved` lists the objects that have been moved, and `done` holds the
    slots of their copies that have been updated. -/
structure Invariant (g : ObjectGraph) (base stop : Nat) (journal : Journal) (e : Evacuation)
    (moved : List Ref) (done : Set (Ref × Nat)) : Prop where
  fromStart_eq : e.fromStart = g.start
  fromTop_eq : e.fromTop = g.top
  toEnd_eq : e.toEnd = stop
  size_eq : e.bytes.size = g.bytes.size
  free_eq : e.free = base + (moved.map g.extent).sum
  quiet : Quiet journal e.journal
  nodup : moved.Nodup
  reachable : ∀ a ∈ moved, g.Reachable a
  done_moved : ∀ p ∈ done, p.1 ∈ moved
  intact : ∀ a ∈ g.objects, a ∉ moved →
    Bytes.Same e.bytes (a.offset 0) g.bytes (a.offset 0) (g.extent a)
  stub : ∀ a ∈ moved, ∀ header, g.header? a = some header → Header.read? e.bytes a =
    some { header with state := .forwarded (Ref.ofOffset (g.place base moved a)) }
  raw : ∀ a ∈ moved, ∀ i < g.extent a,
    (∀ slot ∈ g.slots a, (a, slot.1) ∈ done → ¬(slot.1 ≤ i ∧ i < slot.1 + 4)) →
      e.bytes[g.place base moved a + i]? = g.bytes[a.offset i]?
  slot : ∀ a ∈ moved, ∀ slot ∈ g.slots a, (a, slot.1) ∈ done → ∀ c : Ref,
    g.word? a slot.1 = some c.word →
      e.bytes.word? (g.place base moved a + slot.1) = some (g.relocate base moved c).word ∧
        (c ∈ g.objects → c ∈ moved)
  shape : ∀ a ∈ moved, e.shapeAt (g.place base moved a) = g.roots.shapeOf a
  below : ∀ entry ∈ e.shapes, entry.1 < e.free

section Moves

open ObjectGraph

variable {g : ObjectGraph} {lo hi base stop : Nat} {journal : Journal} {e : Evacuation}
  {moved : List Ref} {done : Set (Ref × Nat)}
variable (wf : g.WellFormed lo hi) (halves : g.Halves base stop)

namespace Invariant

variable (inv : Invariant g base stop journal e moved done)

theorem moved_object {a : Ref} (inv : Invariant g base stop journal e moved done) (ha : a ∈ moved) :
    a ∈ g.objects := (inv.reachable a ha).object

theorem nodup_concat {a : Ref} (nodup : moved.Nodup) (new : a ∉ moved) : (moved ++ [a]).Nodup := by
  rw [← List.concat_eq_append]
  exact nodup.concat new

include wf halves inv in
theorem free_le_stop : e.free ≤ stop := by
  have := wf.sum_extent_le moved inv.nodup fun a ha => inv.moved_object ha
  have := halves.room
  have := inv.free_eq
  omega

include wf halves inv in
/-- There is room for every object that has not been moved. -/
theorem free_add_extent_le {a : Ref} (ha : a ∈ g.objects) (new : a ∉ moved) :
    e.free + g.extent a ≤ stop := by
  have nodup : (moved ++ [a]).Nodup := nodup_concat inv.nodup new
  have objects : ∀ x ∈ moved ++ [a], x ∈ g.objects := by
    intro x hx
    rcases List.mem_append.1 hx with hx | hx
    · exact inv.moved_object hx
    · rw [List.mem_singleton] at hx
      exact hx ▸ ha
  have sum := wf.sum_extent_le (moved ++ [a]) nodup objects
  rw [List.map_append, List.sum_append, List.map_singleton, List.sum_singleton] at sum
  have := halves.room
  have := inv.free_eq
  omega

include wf halves inv in
/-- The place of a moved object lies between `base` and the copy cursor. -/
theorem place_bounds {a : Ref} (ha : a ∈ moved) :
    base ≤ g.place base moved a ∧ g.place base moved a + g.extent a ≤ e.free ∧ e.free ≤ stop := by
  refine ⟨base_le_place, ?_, free_le_stop wf halves inv⟩
  rw [inv.free_eq]
  exact place_add_extent_le ha

/-- Only the slots of moved objects matter for which slots are done. -/
theorem of_done {done' : Set (Ref × Nat)} (inv : Invariant g base stop journal e moved done)
    (same : ∀ a ∈ moved, ∀ slot ∈ g.slots a, (a, slot.1) ∈ done' ↔ (a, slot.1) ∈ done)
    (done_moved : ∀ p ∈ done', p.1 ∈ moved) :
    Invariant g base stop journal e moved done' where
  fromStart_eq := inv.fromStart_eq
  fromTop_eq := inv.fromTop_eq
  toEnd_eq := inv.toEnd_eq
  size_eq := inv.size_eq
  free_eq := inv.free_eq
  quiet := inv.quiet
  nodup := inv.nodup
  reachable := inv.reachable
  done_moved := done_moved
  intact := inv.intact
  stub := inv.stub
  raw := fun a ha i hi outside => inv.raw a ha i hi fun slot hs hd =>
    outside slot hs ((same a ha slot hs).2 hd)
  slot := fun a ha slot hs hd => inv.slot a ha slot hs ((same a ha slot hs).1 hd)
  shape := inv.shape
  below := inv.below

include wf halves inv in
/-- Moving an object keeps the invariant. -/
theorem copied {a : Ref} (ha : g.Reachable a) (new : a ∉ moved) :
    Invariant g base stop journal (e.copied a (g.extent a) (g.roots.shapeOf a)) (moved ++ [a])
      done := by
  have object := ha.object
  have long := wf.header_le_extent object
  have low := wf.low a object
  have high := wf.high a object
  have room := free_add_extent_le wf halves inv object new
  have fits : a.offset (g.extent a) ≤ e.bytes.size := by
    rw [inv.size_eq]
    exact high.trans halves.top_le_size
  have room' : e.free + g.extent a ≤ e.bytes.size := by
    rw [inv.size_eq]
    exact room.trans halves.stop_le_size
  have base_le : base ≤ e.free := by
    rw [inv.free_eq]
    exact Nat.le_add_right _ _
  have halves_apart := halves.apart
  have at11 : a.offset 11 = a.offset 0 + 11 := rfl
  have stop_a : a.offset (g.extent a) = a.offset 0 + g.extent a := rfl
  have place_a : g.place base (moved ++ [a]) a = e.free := by
    rw [place_next new, inv.free_eq]
  have place_c : ∀ c ∈ moved, g.place base (moved ++ [a]) c = g.place base moved c :=
    fun c hc => place_append hc
  have ne_a : ∀ c ∈ moved, c ≠ a := by
    rintro c hc rfl
    exact new hc
  -- the old half is untouched but for the stub, and the new half but for the copy
  have old : ∀ p m, g.start ≤ p → p + m ≤ g.top → p + m ≤ a.offset 0 ∨ a.offset 11 ≤ p →
      Bytes.Same (e.copied a (g.extent a) (g.roots.shapeOf a)).bytes p e.bytes p m :=
    fun p m _ _ stub => same_copied_elsewhere fits room' long p m (by omega) stub
  have new_ : ∀ p m, base ≤ p → p + m ≤ e.free →
      Bytes.Same (e.copied a (g.extent a) (g.roots.shapeOf a)).bytes p e.bytes p m :=
    fun p m _ _ => same_copied_elsewhere fits room' long p m (by omega) (by omega)
  have intact_a := inv.intact a object new
  refine
    { fromStart_eq := fromStart_copied.trans inv.fromStart_eq
      fromTop_eq := fromTop_copied.trans inv.fromTop_eq
      toEnd_eq := toEnd_copied.trans inv.toEnd_eq
      size_eq := size_copied.trans inv.size_eq
      free_eq := ?free_eq
      quiet := by rw [journal_copied]; exact inv.quiet
      nodup := nodup_concat inv.nodup new
      reachable := ?reachable
      done_moved := fun p hp => List.mem_append_left _ (inv.done_moved p hp)
      intact := ?intact
      stub := ?stub
      raw := ?raw
      slot := ?slot
      shape := ?shape
      below := ?below }
  case free_eq =>
    rw [List.map_append, List.sum_append, List.map_singleton, List.sum_singleton, ← Nat.add_assoc,
      ← inv.free_eq, free_copied]
  case reachable =>
    intro c hc
    rcases List.mem_append.1 hc with hc | hc
    · exact inv.reachable c hc
    · rw [List.mem_singleton] at hc
      exact hc ▸ ha
  case intact =>
    intro c hc absent
    rw [List.mem_append, List.mem_singleton, not_or] at absent
    refine (old _ _ (wf.low c hc) (wf.high c hc) ?_).trans (inv.intact c hc absent.1)
    have stop_c : c.offset (g.extent c) = c.offset 0 + g.extent c := rfl
    have := wf.apart c hc a object absent.2
    omega
  case stub =>
    intro c hc header found
    rcases List.mem_append.1 hc with hc | hc
    · have object_c := inv.moved_object hc
      have long_c := wf.header_le_extent object_c
      have stop_c : c.offset (g.extent c) = c.offset 0 + g.extent c := rfl
      have high_c := wf.high c object_c
      have nonnull := ne_null_of_header? found
      have same := old (c.offset 0) 11 (wf.low c object_c) (by omega) (by
        have := wf.apart c object_c a object (ne_a c hc)
        omega)
      rw [Header.read?_congr same (Nat.le_refl _) nonnull nonnull, place_c c hc]
      exact inv.stub c hc header found
    · rw [List.mem_singleton] at hc
      subst hc
      rw [place_a]
      refine read?_copied_stub fits room' long (by omega) ?_
      have nonnull := ne_null_of_header? found
      rw [Header.read?_congr intact_a long nonnull nonnull]
      exact found
  case raw =>
    intro c hc i hi outside
    rcases List.mem_append.1 hc with hc | hc
    · have bounds := place_bounds wf halves inv hc
      rw [place_c c hc]
      have same := new_ (g.place base moved c + i) 1 (by omega) (by omega) 0 (by omega)
      exact same.trans (inv.raw c hc i hi outside)
    · rw [List.mem_singleton] at hc
      subst hc
      rw [place_a]
      exact (same_copied_target fits room' long (by omega) i hi).trans (intact_a i hi)
  case slot =>
    intro c hc slot hs hd d hw
    have hc : c ∈ moved := inv.done_moved _ hd
    obtain ⟨word, target⟩ := inv.slot c hc slot hs hd d hw
    have bounds := place_bounds wf halves inv hc
    have inside := wf.slot_inside (inv.moved_object hc) hs
    refine ⟨?_, fun hd => List.mem_append_left _ (target hd)⟩
    rw [place_c c hc, relocate_of_extension (List.prefix_append moved [a]) target, ← word]
    exact (new_ (g.place base moved c + slot.1) 4 (by omega) (by omega)).word? 0 (by omega)
  case shape =>
    intro c hc
    rcases List.mem_append.1 hc with hc | hc
    · have bounds := place_bounds wf halves inv hc
      have long_c := wf.header_le_extent (inv.moved_object hc)
      rw [place_c c hc, shapeAt_copied_of_lt (by omega)]
      exact inv.shape c hc
    · rw [List.mem_singleton] at hc
      subst hc
      rw [place_a]
      exact shapeAt_copied_free inv.below
  case below =>
    intro entry mem
    rw [free_copied]
    unfold Evacuation.copied at mem
    dsimp only at mem
    split at mem
    · have := inv.below entry mem
      omega
    · rcases List.mem_cons.1 mem with rfl | mem
      · dsimp only
        omega
      · have := inv.below entry mem
        omega

/-- Reporting something else than an exhausted half changes nothing that matters. -/
theorem note (inv : Invariant g base stop journal e moved done) (event : Event)
    (other : ∀ a, event ≠ .spaceExhausted a) :
    Invariant g base stop journal { e with journal := e.journal.note event } moved done :=
  { inv with quiet := inv.quiet.note event other }

end Invariant

/-! ### One move -/

theorem evacuate_stray {a : Ref} (shape : Shape) (h : Stray e.fromStart e.fromTop a) :
    evacuate a shape e = .ok (none, e) := by
  have absent : e.sourceHeader? a = none := by
    unfold sourceHeader?
    refine if_pos ?_
    simp only [Bool.or_eq_true, decide_eq_true_eq]
    unfold Stray at h
    by_cases low : a.offset 0 < e.fromStart
    · exact Or.inl (Or.inr low)
    · exact Or.inr (by omega)
  unfold evacuate
  rw [get_bind, absent]
  rfl

/-- What the collector sees at the address of an object in the half that is left. -/
theorem sourceHeader?_eq {a : Ref} {header : Header} (found : Header.read? e.bytes a = some header)
    (low : e.fromStart ≤ a.offset 0) (high : a.offset header.objectBytes ≤ e.fromTop) :
    e.sourceHeader? a = some header := by
  obtain ⟨nonnull, -⟩ := (Header.read?_eq_some_iff _ _ _).1 found
  have long := header.objectBytes_pos
  have stop : a.offset header.objectBytes = a.offset 0 + header.objectBytes := rfl
  unfold sourceHeader?
  dsimp only
  rw [if_neg]
  · rw [found]
    exact if_pos high
  · simp only [Bool.or_eq_true, Ref.isNull_iff, decide_eq_true_eq, not_or]
    exact ⟨⟨nonnull, by omega⟩, by omega⟩

/-- A stub says where the object went. -/
theorem evacuate_stub {a new : Ref} {header : Header} (shape : Shape)
    (source : e.sourceHeader? a = some header) (stub : header.forwarding? = some new) :
    evacuate a shape e = .ok (some new, e) := by
  unfold evacuate
  rw [get_bind, source]
  dsimp only
  rw [stub]
  rfl

include wf halves in
/-- **One move.**  Evacuating an object gives its place, and moves it if it has not been
    moved yet. -/
theorem evacuate_object (inv : Invariant g base stop journal e moved done) {a : Ref} {shape : Shape}
    (reach : g.Reachable a) (known : a ∈ moved ∨ shape = g.roots.shapeOf a) :
    ∃ e' moved', moved <+: moved' ∧ Invariant g base stop journal e' moved' done ∧ a ∈ moved' ∧
      evacuate a shape e = .ok (some (Ref.ofOffset (g.place base moved' a)), e') := by
  have object := reach.object
  obtain ⟨kind, size, classRef, found⟩ := wf.header object
  have low : e.fromStart ≤ a.offset 0 := inv.fromStart_eq ▸ wf.low a object
  have high : a.offset (kind.objectBytes size) ≤ e.fromTop := by
    have := wf.high a object
    rwa [extent_eq found, ← inv.fromTop_eq] at this
  by_cases ha : a ∈ moved
  · refine ⟨e, moved, List.prefix_refl moved, inv, ha, ?_⟩
    exact evacuate_stub shape (sourceHeader?_eq (inv.stub a ha _ found) low high) rfl
  · have shape_eq : shape = g.roots.shapeOf a := known.resolve_left ha
    have long := wf.header_le_extent object
    have nonnull := ne_null_of_header? found
    have found' : Header.read? e.bytes a = some ⟨kind, size, .normal classRef⟩ := by
      rw [Header.read?_congr (inv.intact a object ha) long nonnull nonnull]
      exact found
    have source := sourceHeader?_eq found' low high
    have room := inv.free_add_extent_le wf halves object ha
    have fits : a.offset (g.extent a) ≤ e.bytes.size := by
      rw [inv.size_eq]
      exact (wf.high a object).trans halves.top_le_size
    have room' : e.free + g.extent a ≤ e.bytes.size := by
      rw [inv.size_eq]
      exact room.trans halves.stop_le_size
    refine ⟨_, _, List.prefix_append moved [a], inv.copied wf halves reach ha, ?_, ?_⟩
    · exact List.mem_append_right _ (List.mem_singleton_self a)
    · have enough : ¬e.toEnd < e.free + Header.objectBytes ⟨kind, size, .normal classRef⟩ := by
        rw [inv.toEnd_eq, ← extent_eq found]
        omega
      unfold evacuate
      rw [get_bind, source]
      dsimp only [Header.forwarding?]
      rw [get_bind, get_bind, if_neg enough, ← extent_eq found,
        bind_of_ok (copyOut_eq a (g.extent a) shape fits room' long), place_next ha, ← inv.free_eq,
        shape_eq]
      rfl

end Moves

end Evacuation

end ObjectMachine
