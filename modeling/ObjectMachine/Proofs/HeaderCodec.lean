/-
  ObjectMachine/Proofs/HeaderCodec.lean
  =====================================
  **Headers and fields are stored exactly, and nowhere else.**

  Eleven bytes stand for at most one header, and a header has one written form, so a header
  that was read can be written back without a trace.  Forwarding an object, changing its class
  and storing a field write a part of it each.  The parts of an object do not overlap, wherever
  it starts and however large it is, so what is not written is read as before.

  Only objects with references have fields.  The size of an object of bytes counts its bytes; an
  index below it leads to no field, and a store there is refused.
-/
import ObjectMachine.Proofs.MemoryOperations
import Mathlib.Order.Interval.Set.Basic

namespace ObjectMachine

/-! ### Changes that stay in their place -/

namespace Bytes

/-- Outside the offsets `s` the one buffer is what the other is. -/
structure ChangedIn (b' b : Bytes) (s : Set Nat) : Prop where
  size : b'.size = b.size
  kept : ∀ k ∉ s, b'[k]? = b[k]?

namespace ChangedIn

variable {b b' b'' : Bytes} {s t : Set Nat}

theorem overwrite {start : Nat} {xs : List UInt8} (fits : start + xs.length ≤ b.size) :
    (b.overwrite start xs).ChangedIn b (Set.Ico start (start + xs.length)) where
  size := size_overwrite b start xs
  kept k outside := by
    rw [getElem?_overwrite _ _ _ _ fits]
    exact if_neg outside

theorem trans (h : b'.ChangedIn b s) (h' : b''.ChangedIn b' t) : b''.ChangedIn b (s ∪ t) where
  size := h'.size.trans h.size
  kept k outside := by
    rw [Set.mem_union, not_or] at outside
    exact (h'.kept k outside.2).trans (h.kept k outside.1)

/-- A range in which nothing has changed. -/
theorem same {p n : Nat} (h : b'.ChangedIn b s) (apart : ∀ k ∈ s, k < p ∨ p + n ≤ k) :
    Same b' p b p n := by
  intro i inside
  apply h.kept
  intro mem
  have := apart _ mem
  omega

theorem word? {p : Nat} (h : b'.ChangedIn b s) (apart : ∀ k ∈ s, k < p ∨ p + 4 ≤ k) :
    b'.word? p = b.word? p :=
  (h.same apart).word? 0 (Nat.le_refl 4)

end ChangedIn

/-- Writing what is there changes nothing. -/
theorem overwrite_slice (b : Bytes) {p n : Nat} (fits : p + n ≤ b.size) :
    b.overwrite p (b.slice p n) = b := by
  have length := length_slice b p n fits
  apply Array.ext_getElem?
  intro i
  rw [getElem?_overwrite _ _ _ _ (by omega), length, getElem?_slice]
  split
  · rename_i inside
    rw [if_pos (by omega), Nat.add_sub_cancel' inside.1]
  · rfl

end Bytes

/-! ### Headers -/

namespace Header

variable {b b' : Bytes} {r : Ref} {h : Header}

/-- **One form.**  The bytes that stand for a header are those it is written as. -/
theorem encode_of_decode? {xs : List UInt8} (decoded : decode? xs = some h) : h.encode = xs := by
  unfold decode? at decoded
  split at decoded
  · rename_i m k s s0 s1 s2 s3 c0 c1 c2 c3
    split at decoded
    · rename_i marked
      obtain ⟨kind, kind_eq, decoded⟩ := Option.bind_eq_some_iff.1 decoded
      obtain ⟨state, state_eq, decoded⟩ := Option.bind_eq_some_iff.1 decoded
      cases decoded
      obtain ⟨byte, word⟩ := (state?_eq_some_iff _ _ _).1 state_eq
      rw [encode, ← marked, ← (ObjectKind.ofByte?_eq_some_iff _ _).1 kind_eq, ← byte, ← word,
        Word.bytes_ofBytes, Word.bytes_ofBytes]
      rfl
    · cases decoded
  · cases decoded

theorem write?_eq (h : Header) (fits : r.offset 11 ≤ b.size) :
    h.write? b r = some (b.overwrite (r.offset 0) h.encode) := if_pos fits

/-- Writing back the header that was read changes nothing. -/
theorem write?_of_read? (read : read? b r = some h) : h.write? b r = some b := by
  unfold read? at read
  split at read
  · cases read
  · obtain ⟨xs, bytes, decoded⟩ := Option.bind_eq_some_iff.1 read
    unfold Bytes.read? at bytes
    split at bytes
    · rename_i fits
      cases bytes
      rw [write?_eq h fits, encode_of_decode? decoded, Bytes.overwrite_slice b fits]
    · cases bytes

/-- **A new state.**  Where only the state byte and the last word have changed, kind and size
    are read as before. -/
theorem read?_withState {s : Set Nat} {state : HeaderState} (read : read? b r = some h)
    (changed : b'.ChangedIn b s) (apart : ∀ k ∈ s, k = r.offset 2 ∨ r.offset 7 ≤ k)
    (byte : b'[r.offset 2]? = some (stateByte state))
    (word : b'.word? (r.offset 7) = some (stateWord state)) :
    read? b' r = some { h with state } := by
  obtain ⟨nonnull, marked, kind, -, size, -⟩ := (read?_eq_some_iff _ _ _).1 read
  have kept : ∀ k, k ≠ 2 → k < 7 → r.offset k ∉ s := by
    intro k other low mem
    rcases apart _ mem with same | high
    · exact other (Nat.add_left_cancel same)
    · exact absurd (Nat.le_of_add_le_add_left high) (Nat.not_le.2 low)
  have size' : b'.word? (r.offset 3) = b.word? (r.offset 3) := by
    apply changed.word?
    intro k mem
    rcases apart k mem with rfl | high
    · exact Or.inl (Nat.lt_succ_self _)
    · exact Or.inr high
  apply (read?_eq_some_iff _ _ _).2
  refine ⟨nonnull, ?_, ?_, byte, size'.trans size, word⟩
  · rw [changed.kept _ (kept 0 (by decide) (by decide)), marked]
  · rw [changed.kept _ (kept 1 (by decide) (by decide)), kind]

/-- The bytes of the last word of a header. -/
def wordOffsets (r : Ref) : Set Nat := Set.Ico (r.offset 7) (r.offset 11)

theorem state_not_mem_wordOffsets (r : Ref) : r.offset 2 ∉ wordOffsets r := fun inside =>
  absurd (Nat.le_of_add_le_add_left inside.1) (by decide)

/-- The bytes in which a stub differs from the object it stands for: state and last word. -/
def stubOffsets (r : Ref) : Set Nat := Set.Ico (r.offset 2) (r.offset 3) ∪ wordOffsets r

/-- Forwarding changes the state and the last word of a header. -/
theorem forward?_of_read? (target : Ref) (read : read? b r = some h)
    (fits : r.offset 11 ≤ b.size) : ∃ b', forward? b r target = some b' ∧
      read? b' r = some { h with state := .forwarded target } ∧ b'.ChangedIn b (stubOffsets r) := by
  have stampFits : r.offset 2 + 1 ≤ b.size :=
    Nat.le_trans (Nat.add_le_add_left (show 3 ≤ 11 by decide) r.word.toNat) fits
  let stamped := b.overwrite (r.offset 2) [stateByte (.forwarded target)]
  have stamp : stamped.ChangedIn b (Set.Ico (r.offset 2) (r.offset 3)) :=
    Bytes.ChangedIn.overwrite stampFits
  have wordFits : r.offset 7 + 4 ≤ stamped.size := by
    rw [stamp.size]
    exact fits
  let stub := stamped.overwrite (r.offset 7) target.word.bytes
  have named : stub.ChangedIn stamped (wordOffsets r) := Bytes.ChangedIn.overwrite wordFits
  have made : forward? b r target = some stub := by
    have first : b.write? (r.offset stateOffset) [stateByte (.forwarded target)] = some stamped :=
      if_pos stampFits
    rw [forward?, first]
    exact if_pos wordFits
  have changed : stub.ChangedIn b (stubOffsets r) := stamp.trans named
  refine ⟨stub, made, read?_withState read changed ?apart ?byte ?word, changed⟩
  case apart =>
    rintro k (inside | inside)
    · exact Or.inl (Nat.le_antisymm (Nat.le_of_lt_succ inside.2) inside.1)
    · exact Or.inr inside.1
  case byte =>
    rw [named.kept _ (state_not_mem_wordOffsets r)]
    exact Bytes.getElem?_overwrite_self b _ _ 0 stampFits Nat.one_pos
  case word => exact Bytes.word?_overwrite_self _ _ _ wordFits

/-- Changing the class changes the last word of a header. -/
theorem setClass?_of_read? {old : Ref} (classRef : Ref) (read : read? b r = some h)
    (normal : h.state = .normal old) (fits : r.offset 11 ≤ b.size) :
    ∃ b', setClass? b r classRef = some b' ∧
      read? b' r = some { h with state := .normal classRef } ∧ b'.ChangedIn b (wordOffsets r) := by
  let b' := b.overwrite (r.offset 7) classRef.word.bytes
  have changed : b'.ChangedIn b (wordOffsets r) :=
    @Bytes.ChangedIn.overwrite b _ classRef.word.bytes fits
  have byte : b'[r.offset 2]? = some (stateByte (.normal classRef)) := by
    obtain ⟨-, -, -, byte, -⟩ := (read?_eq_some_iff _ _ _).1 read
    rw [changed.kept _ (state_not_mem_wordOffsets r), byte, normal]
    rfl
  have word : b'.word? (r.offset 7) = some classRef.word := Bytes.word?_overwrite_self _ _ _ fits
  have apart : ∀ k ∈ wordOffsets r, k = r.offset 2 ∨ r.offset 7 ≤ k :=
    fun k inside => Or.inr inside.1
  exact ⟨b', if_pos fits, read?_withState read changed apart byte word, changed⟩

end Header

/-! ### Fields -/

/-- The bytes of field `index` of the object at an address. -/
def fieldOffsets (r : Ref) (index : Nat) : Set Nat :=
  Set.Ico (fieldOffset r index) (fieldOffset r index + 4)

/-- Where a field lies: past the header, and past all fields before it. -/
theorem fieldOffset_eq (r : Ref) (index : Nat) : fieldOffset r index = r.offset 0 + (11 + index * 4) :=
  rfl

section Changed

variable {b b' : Bytes} {r : Ref} {i : Nat} (changed : b'.ChangedIn b (fieldOffsets r i))
include changed

/-- The header lies before all fields. -/
theorem Header.read?_of_field (nonnull : r ≠ Ref.null) : Header.read? b' r = Header.read? b r := by
  refine Header.read?_congr (changed.same fun k inside => ?_) (Nat.le_refl 11) nonnull nonnull
  have low : fieldOffset r i ≤ k := inside.1
  rw [fieldOffset_eq] at low
  omega

/-- No two fields overlap. -/
theorem word?_of_other_field {j : Nat} (other : j ≠ i) :
    b'.word? (fieldOffset r j) = b.word? (fieldOffset r j) := by
  refine changed.word? fun k inside => ?_
  have low : fieldOffset r i ≤ k := inside.1
  have high : k < fieldOffset r i + 4 := inside.2
  rw [fieldOffset_eq] at low high ⊢
  omega

end Changed

namespace ObjectView

/-- Stores a word in field `index` of an object and says whether it has one.  Without a field
    nothing is stored. -/
def setFieldWord (v : ObjectView) (index : Nat) (value : Word) : Bool × Bytes :=
  if Object.hasField v.header index then (true, Object.setField v.heap v.addr index value)
  else (false, v.heap)

variable {b : Bytes} {r : Ref} {v : ObjectView} {i : Nat}

theorem at?_eq_some_iff : at? b r = some v ↔ Header.read? b r = some v.header ∧
    r.offset v.header.objectBytes ≤ b.size ∧ v = ⟨b, r, v.header⟩ := by
  unfold at?
  cases read : Header.read? b r with
  | none => exact ⟨nofun, nofun⟩
  | some header =>
    dsimp only
    constructor
    · intro found
      split at found
      · rename_i whole
        cases found
        exact ⟨rfl, whole, rfl⟩
      · cases found
    · rintro ⟨same, whole, eq⟩
      cases same
      rw [if_pos whole, ← eq]

theorem hasField_eq_true_iff : Object.hasField v.header i = true ↔
    v.hasPointers = true ∧ i < v.header.size.toNat := by
  rw [Object.hasField, Bool.and_eq_true, decide_eq_true_eq]
  rfl

/-- The fields of an object lie in its buffer. -/
theorem fieldOffset_le (found : at? b r = some v) (pointers : v.hasPointers = true)
    (inside : i < v.header.size.toNat) : fieldOffset r i + 4 ≤ b.size := by
  obtain ⟨-, whole, -⟩ := at?_eq_some_iff.1 found
  have stop : r.offset v.header.objectBytes = r.offset 0 + (11 + v.header.size.toNat * 4) := by
    rw [Header.objectBytes, ObjectKind.objectBytes, eq_of_beq pointers]
    rfl
  rw [fieldOffset_eq]
  omega

/-- **A store that finds its field** changes the four bytes of that field, and so neither the
    header nor another field. -/
theorem setFieldWord_of_field (found : at? b r = some v) (pointers : v.hasPointers = true)
    (inside : i < v.header.size.toNat) (w : Word) : ∃ b' v', v.setFieldWord i w = (true, b') ∧
      at? b' r = some v' ∧ v'.header = v.header ∧ v'.fieldWord? i = some w ∧
      (∀ j, j ≠ i → v'.fieldWord? j = v.fieldWord? j) ∧ b'.ChangedIn b (fieldOffsets r i) := by
  have fits : fieldOffset r i + w.bytes.length ≤ b.size := fieldOffset_le found pointers inside
  obtain ⟨read, whole, eq⟩ := at?_eq_some_iff.1 found
  have nonnull := ((Header.read?_eq_some_iff _ _ _).1 read).1
  have has := hasField_eq_true_iff.2 ⟨pointers, inside⟩
  let b' := Object.setField b r i w
  have changed : b'.ChangedIn b (fieldOffsets r i) := Bytes.ChangedIn.overwrite fits
  have found' : at? b' r = some ⟨b', r, v.header⟩ := at?_eq_some_iff.2
    ⟨(Header.read?_of_field changed nonnull).trans read, changed.size ▸ whole, rfl⟩
  refine ⟨b', ⟨b', r, v.header⟩, ?answer, found', rfl, ?here, ?others, changed⟩
  case answer => rw [setFieldWord, if_pos has, eq]
  case here =>
    have read' : (⟨b', r, v.header⟩ : ObjectView).fieldWord? i = b'.word? (fieldOffset r i) :=
      if_pos has
    rw [read']
    exact Bytes.word?_overwrite_self _ _ _ fits
  case others =>
    intro j other
    rw [eq]
    unfold fieldWord?
    rw [word?_of_other_field changed other]
    rfl

/-- **A store that finds no field** changes nothing. -/
theorem setFieldWord_of_missing (found : at? b r = some v)
    (missing : ¬(v.hasPointers = true ∧ i < v.header.size.toNat)) (w : Word) :
    v.setFieldWord i w = (false, b) := by
  obtain ⟨-, -, eq⟩ := at?_eq_some_iff.1 found
  rw [setFieldWord, if_neg (hasField_eq_true_iff.not.2 missing), eq]

end ObjectView

/-- The memory stores fields in this way. -/
theorem Memory.setField_of_view {m : Memory} {r : Ref} {v : ObjectView} (found : m.view r = .ok v)
    (i : Nat) (w : Word) : Memory.setField r i w m = .ok (v.setFieldWord i w).1
      { m with space := m.space.mapBytes fun _ => (v.setFieldWord i w).2 } := by
  have seen : ObjectView.at? m.space.bytes r = some v := by
    unfold Memory.view at found
    split at found
    · cases found
    · split at found
      · split at found
        · rename_i at_
          cases found
          exact at_
        · cases found
      · cases found
  obtain ⟨-, -, eq⟩ := ObjectView.at?_eq_some_iff.1 seen
  unfold Memory.setField
  rw [run_bind_ok (Memory.query_ok (Memory.header_of_view found)), ObjectView.setFieldWord]
  split
  · rw [run_bind_ok (Memory.modifyHeap_eq _ _), eq]
    rfl
  · rw [eq]
    rfl

/-! ### The codec -/

/-- **Headers and fields are stored exactly, and nowhere else.**  Where a header fits, every
    header can be written and is read back, and one that was read is written back without a
    trace.  Forwarding and changing the class keep kind and size.  A word that is stored in a
    field is found there, and the header and all other fields are what they were; where an
    object has no such field, the store is refused.  No other byte of the buffer changes. -/
theorem stores_are_exact_and_local {b : Bytes} {r : Ref} (small : b.size < wordLimit - 1)
    (fits : r.offset 11 ≤ b.size) :
    (∀ h : Header, ∃ b', h.write? b r = some b' ∧ Header.read? b' r = some h ∧
      b'.ChangedIn b (Set.Ico (r.offset 0) (r.offset 11))) ∧
    (∀ h, Header.read? b r = some h → h.write? b r = some b) ∧
    (∀ kind size state target, Header.read? b r = some ⟨kind, size, state⟩ →
      ∃ b', Header.forward? b r target = some b' ∧
        Header.read? b' r = some ⟨kind, size, .forwarded target⟩ ∧
        b'.ChangedIn b (Header.stubOffsets r)) ∧
    (∀ kind size old c, Header.read? b r = some ⟨kind, size, .normal old⟩ →
      ∃ b', Header.setClass? b r c = some b' ∧
        Header.read? b' r = some ⟨kind, size, .normal c⟩ ∧
        b'.ChangedIn b (Header.wordOffsets r)) ∧
    (∀ v i w, ObjectView.at? b r = some v → v.hasPointers = true → i < v.header.size.toNat →
      ∃ b' v', v.setFieldWord i w = (true, b') ∧ ObjectView.at? b' r = some v' ∧
        v'.header = v.header ∧ v'.fieldWord? i = some w ∧
        (∀ j, j ≠ i → v'.fieldWord? j = v.fieldWord? j) ∧
        b'.ChangedIn b (fieldOffsets r i)) ∧
    (∀ v i w, ObjectView.at? b r = some v →
      ¬(v.hasPointers = true ∧ i < v.header.size.toNat) →
      v.setFieldWord i w = (false, b) ∧ v.fieldWord? i = none) := by
  refine ⟨?written, fun h => Header.write?_of_read?, ?forwarded, ?classed, ?stored, ?refused⟩
  case written =>
    intro h
    have nonnull : r ≠ Ref.null := by
      rintro rfl
      have last : Ref.null.offset 11 = wordLimit - 1 + 11 := rfl
      omega
    exact ⟨_, Header.write?_eq h fits, Header.read?_overwrite_encode b r h nonnull fits,
      @Bytes.ChangedIn.overwrite b _ h.encode fits⟩
  case forwarded =>
    exact fun kind size state target read => Header.forward?_of_read? target read fits
  case classed =>
    exact fun kind size old c read => Header.setClass?_of_read? c read rfl fits
  case stored =>
    exact fun v i w found pointers inside =>
      ObjectView.setFieldWord_of_field found pointers inside w
  case refused =>
    intro v i w found missing
    refine ⟨ObjectView.setFieldWord_of_missing found missing w, if_neg ?_⟩
    exact ObjectView.hasField_eq_true_iff.not.2 missing

/-- Two references, in an object that ends with its buffer and starts at no word boundary. -/
def twoReferences : Bytes :=
  ([7, 7, 7] ++ Header.encode ⟨.pointers, 2, .normal ⟨40⟩⟩ ++ List.replicate 8 0xFF).toArray

theorem twoReferences_stored : twoReferences.size < wordLimit - 1 ∧
    (⟨3⟩ : Ref).offset 11 ≤ twoReferences.size ∧
    Header.read? twoReferences ⟨3⟩ = some ⟨.pointers, 2, .normal ⟨40⟩⟩ ∧
    (∃ b', Header.forward? twoReferences ⟨3⟩ ⟨14⟩ = some b' ∧
      Header.read? b' ⟨3⟩ = some ⟨.pointers, 2, .forwarded ⟨14⟩⟩ ∧
      b'.ChangedIn twoReferences (Header.stubOffsets ⟨3⟩)) ∧
    (∃ b', Header.setClass? twoReferences ⟨3⟩ Ref.null = some b' ∧
      Header.read? b' ⟨3⟩ = some ⟨.pointers, 2, .normal Ref.null⟩ ∧
      b'.ChangedIn twoReferences (Header.wordOffsets ⟨3⟩)) ∧
    ∃ v, ObjectView.at? twoReferences ⟨3⟩ = some v ∧
      (v.hasPointers = true ∧ 1 < v.header.size.toNat ∧
        ∃ b' v', v.setFieldWord 1 5 = (true, b') ∧ ObjectView.at? b' ⟨3⟩ = some v' ∧
          v'.header = v.header ∧ v'.fieldWord? 1 = some 5 ∧
          (∀ j, j ≠ 1 → v'.fieldWord? j = v.fieldWord? j) ∧
          b'.ChangedIn twoReferences (fieldOffsets ⟨3⟩ 1)) ∧
      ¬(v.hasPointers = true ∧ 2 < v.header.size.toNat) ∧
      v.setFieldWord 2 5 = (false, twoReferences) ∧ v.fieldWord? 2 = none := by
  have small : twoReferences.size < wordLimit - 1 := by decide
  have fits : (⟨3⟩ : Ref).offset 11 ≤ twoReferences.size := by decide
  have read : Header.read? twoReferences ⟨3⟩ = some ⟨.pointers, 2, .normal ⟨40⟩⟩ := by decide
  have found : ObjectView.at? twoReferences ⟨3⟩ =
      some ⟨twoReferences, ⟨3⟩, ⟨.pointers, 2, .normal ⟨40⟩⟩⟩ :=
    ObjectView.at?_eq_some_iff.2 ⟨read, by decide, rfl⟩
  obtain ⟨-, -, forwarded, classed, stored, refused⟩ := stores_are_exact_and_local small fits
  refine ⟨small, fits, read, forwarded _ _ _ _ read, classed _ _ _ _ read, _, found, ?_, ?_⟩
  · exact ⟨rfl, by decide, stored _ 1 5 found rfl (by decide)⟩
  · exact ⟨by decide, refused _ 2 5 found (by decide)⟩

/-- An object of four bytes. -/
def fourBytes : Bytes := (Header.encode ⟨.bytes, 4, .normal Ref.null⟩ ++ [0, 0, 0, 0]).toArray

/-- **Bytes are no fields.**  An index below the size is not enough: of an object of bytes the
    size counts bytes, and it has no field to store a word in. -/
theorem bytes_are_no_fields : ¬∀ (b : Bytes) (r : Ref) (v : ObjectView) (i : Nat) (w : Word),
    b.size < wordLimit - 1 → ObjectView.at? b r = some v → i < v.header.size.toNat →
      (ObjectView.at? (v.setFieldWord i w).2 r).bind (·.fieldWord? i) = some w := by
  intro claim
  have read : Header.read? fourBytes ⟨0⟩ = some ⟨.bytes, 4, .normal Ref.null⟩ := by decide
  have found : ObjectView.at? fourBytes ⟨0⟩ =
      some ⟨fourBytes, ⟨0⟩, ⟨.bytes, 4, .normal Ref.null⟩⟩ :=
    ObjectView.at?_eq_some_iff.2 ⟨read, by decide, rfl⟩
  have stored := claim fourBytes ⟨0⟩ _ 0 7 (by decide) found (by decide)
  rw [ObjectView.setFieldWord_of_missing found (by decide), found] at stored
  exact absurd stored (by decide)

end ObjectMachine
