/-
  ObjectMachine/Proofs/ByteRanges.lean
  ====================================
  **Ranges of bytes** — what reading and writing mean for a stretch of a buffer.

  Everything that is read from a buffer, a word, a header or a payload, is a function of
  the bytes in one range.  `Bytes.Same` says that two ranges, perhaps of two buffers and
  at two places, hold the same bytes, so the facts below carry every kind of read from one
  range to the other: across a write somewhere else, and across a copy.
-/
import ObjectMachine.Object.Class
import Mathlib.Tactic.Common

namespace ObjectMachine

namespace Bytes

/-- The `n` bytes of `b` from `p` on are the `n` bytes of `b'` from `p'` on. -/
def Same (b : Bytes) (p : Nat) (b' : Bytes) (p' n : Nat) : Prop :=
  ∀ i < n, b[p + i]? = b'[p' + i]?

namespace Same

variable {b b' b'' : Bytes} {p p' p'' n : Nat}

theorem refl (b : Bytes) (p n : Nat) : Same b p b p n := fun _ _ => rfl

theorem symm (h : Same b p b' p' n) : Same b' p' b p n := fun i hi => (h i hi).symm

theorem trans (h : Same b p b' p' n) (h' : Same b' p' b'' p'' n) : Same b p b'' p'' n :=
  fun i hi => (h i hi).trans (h' i hi)

/-- A part of the range. -/
theorem part (h : Same b p b' p' n) (k m : Nat) (hm : k + m ≤ n) :
    Same b (p + k) b' (p' + k) m := by
  intro i hi
  have := h (k + i) (by omega)
  rwa [← Nat.add_assoc, ← Nat.add_assoc] at this

end Same

/-! ### Writing -/

/-- A write changes nothing outside its range. -/
theorem same_overwrite (b : Bytes) (start : Nat) (xs : List UInt8) (p n : Nat)
    (fits : start + xs.length ≤ b.size) (apart : p + n ≤ start ∨ start + xs.length ≤ p) :
    Same (b.overwrite start xs) p b p n := by
  intro i hi
  rw [getElem?_overwrite _ _ _ _ fits, if_neg (by omega)]

/-- What was written can be read back. -/
theorem getElem?_overwrite_self (b : Bytes) (start : Nat) (xs : List UInt8) (i : Nat)
    (fits : start + xs.length ≤ b.size) (hi : i < xs.length) :
    (b.overwrite start xs)[start + i]? = xs[i]? := by
  rw [getElem?_overwrite _ _ _ _ fits, if_pos (by omega), Nat.add_sub_cancel_left]

@[simp] theorem size_wipe (b : Bytes) (start count : Nat) : (b.wipe start count).size = b.size := by
  rw [wipe_eq_overwrite, size_overwrite]

/-- Wiping changes nothing outside its range. -/
theorem same_wipe (b : Bytes) (start count p n : Nat) (fits : start + count ≤ b.size)
    (apart : p + n ≤ start ∨ start + count ≤ p) : Same (b.wipe start count) p b p n := by
  rw [wipe_eq_overwrite]
  exact same_overwrite _ _ _ _ _ (by simpa using fits) (by simpa using apart)

/-- Wiped bytes are zero. -/
theorem getElem?_wipe (b : Bytes) (start count i : Nat) (fits : start + count ≤ b.size)
    (low : start ≤ i) (high : i < start + count) : (b.wipe start count)[i]? = some 0 := by
  rw [wipe_eq_overwrite, getElem?_overwrite _ _ _ _ (by simpa using fits), if_pos (by simp; omega),
    List.getElem?_replicate, if_pos (by omega)]

/-! ### Reading -/

/-- A word as a function of its four bytes. -/
theorem word?_eq (b : Bytes) (p : Nat) :
    b.word? p = b[p]?.bind fun w => b[p + 1]?.bind fun x => b[p + 2]?.bind fun y =>
      b[p + 3]?.map fun z => Word.ofBytes w x y z := by
  unfold word?
  split
  · rename_i h
    rw [Array.getElem?_eq_getElem (by omega), Array.getElem?_eq_getElem (by omega),
      Array.getElem?_eq_getElem (by omega), Array.getElem?_eq_getElem (by omega)]
    rfl
  · rename_i h
    rw [Array.getElem?_eq_none (i := p + 3) (by omega)]
    cases b[p]? <;> cases b[p + 1]? <;> cases b[p + 2]? <;> rfl

/-- Equal ranges hold equal words. -/
theorem Same.word? {b b' : Bytes} {p p' n : Nat} (h : Same b p b' p' n) (k : Nat)
    (hk : k + 4 ≤ n) : b.word? (p + k) = b'.word? (p' + k) := by
  have at' : ∀ j < 4, b[p + k + j]? = b'[p' + k + j]? := fun j hj => h.part k 4 hk j hj
  have at0 : b[p + k]? = b'[p' + k]? := at' 0 (by omega)
  rw [word?_eq, word?_eq, at0, at' 1 (by omega), at' 2 (by omega), at' 3 (by omega)]

theorem word?_eq_some_iff_le (b : Bytes) (p : Nat) : (∃ w, b.word? p = some w) ↔ p + 4 ≤ b.size := by
  unfold Bytes.word?
  split
  · rename_i h
    exact ⟨fun _ => h, fun _ => ⟨_, rfl⟩⟩
  · rename_i h
    refine ⟨?_, fun h' => absurd h' h⟩
    rintro ⟨w, hw⟩
    cases hw

/-- A word that was written can be read back. -/
theorem word?_overwrite_self (b : Bytes) (p : Nat) (w : Word) (fits : p + 4 ≤ b.size) :
    (b.overwrite p w.bytes).word? p = some w := by
  have byte : ∀ i < 4, (b.overwrite p w.bytes)[p + i]? = w.bytes[i]? := fun i hi =>
    getElem?_overwrite_self b p w.bytes i (by simpa using fits) (by simpa using hi)
  have byte0 : (b.overwrite p w.bytes)[p]? = w.bytes[0]? := byte 0 (by omega)
  rw [word?_eq, byte0, byte 1 (by omega), byte 2 (by omega), byte 3 (by omega)]
  exact congrArg some (Word.ofBytes_bytes w)

/-- A write does not change a word outside its range. -/
theorem word?_overwrite_of_apart (b : Bytes) (start : Nat) (xs : List UInt8) (p : Nat)
    (fits : start + xs.length ≤ b.size) (apart : p + 4 ≤ start ∨ start + xs.length ≤ p) :
    (b.overwrite start xs).word? p = b.word? p :=
  (same_overwrite b start xs p 4 fits apart).word? 0 (by omega)

theorem getElem?_slice (b : Bytes) (p n i : Nat) :
    (b.slice p n)[i]? = if i < n then b[p + i]? else none := by
  unfold slice
  rw [Array.getElem?_toList, Array.getElem?_extract]
  by_cases hi : i < n
  · by_cases hb : p + i < b.size
    · rw [if_pos (by omega), if_pos hi]
    · rw [if_neg (by omega), if_pos hi, Array.getElem?_eq_none (by omega)]
  · rw [if_neg (by omega), if_neg hi]

theorem length_slice (b : Bytes) (p n : Nat) (fits : p + n ≤ b.size) : (b.slice p n).length = n := by
  unfold slice
  rw [Array.length_toList, Array.size_extract]
  omega

/-- Equal ranges are equal as lists. -/
theorem Same.slice {b b' : Bytes} {p p' n : Nat} (h : Same b p b' p' n) :
    b.slice p n = b'.slice p' n := by
  apply List.ext_getElem?
  intro i
  rw [getElem?_slice, getElem?_slice]
  split
  · rename_i hi
    exact h i hi
  · rfl

/-- Writing a copy of a range makes the two ranges equal. -/
theorem same_overwrite_slice (b c : Bytes) (p q n : Nat) (fits : p + n ≤ c.size)
    (room : q + n ≤ b.size) : Same (b.overwrite q (c.slice p n)) q c p n := by
  have length := length_slice c p n fits
  intro i hi
  rw [getElem?_overwrite_self _ _ _ _ (by omega) (by omega), getElem?_slice, if_pos hi]

/-- Ranges that agree and are not empty end inside their buffers together. -/
theorem Same.le_size {b b' : Bytes} {p p' n : Nat} (h : Same b p b' p' n) (pos : 0 < n)
    (fits : p' + n ≤ b'.size) : p + n ≤ b.size := by
  have last := h (n - 1) (by omega)
  rw [Array.getElem?_eq_getElem (show p' + (n - 1) < b'.size by omega)] at last
  have := (Array.getElem?_eq_some_iff.1 last).1
  omega

theorem Same.read? {b b' : Bytes} {p p' n : Nat} (h : Same b p b' p' n) (pos : 0 < n) :
    b.read? p n = b'.read? p' n := by
  unfold Bytes.read?
  by_cases hb : p + n ≤ b.size
  · rw [if_pos hb, if_pos (h.symm.le_size pos hb), h.slice]
  · rw [if_neg hb, if_neg fun hb' => hb (h.le_size pos hb')]

end Bytes

/-! ### Headers -/

theorem ObjectKind.ofByte?_eq_some_iff (x : UInt8) (kind : ObjectKind) :
    ObjectKind.ofByte? x = some kind ↔ x = kind.byte := by
  unfold ObjectKind.ofByte?
  constructor
  · intro h
    split at h
    · cases h
      assumption
    · split at h
      · cases h
        assumption
      · cases h
  · rintro rfl
    cases kind <;> rfl

namespace Header

theorem state?_eq_some_iff (x : UInt8) (w : Word) (state : HeaderState) :
    state? x w = some state ↔ x = stateByte state ∧ w = stateWord state := by
  unfold state?
  constructor
  · intro h
    split at h
    · cases h
      exact ⟨by assumption, rfl⟩
    · split at h
      · cases h
        exact ⟨by assumption, rfl⟩
      · cases h
  · rintro ⟨rfl, rfl⟩
    cases state <;> rfl

/-- Equal ranges hold equal headers. -/
theorem read?_congr {b b' : Bytes} {a a' : Ref} {n : Nat}
    (h : Bytes.Same b (a.offset 0) b' (a'.offset 0) n) (hn : 11 ≤ n)
    (ha : a ≠ Ref.null) (ha' : a' ≠ Ref.null) : read? b a = read? b' a' := by
  have same := h.part 0 11 (by omega)
  rw [Nat.add_zero, Nat.add_zero] at same
  have nn : a.isNull = false := by simpa using ha
  have nn' : a'.isNull = false := by simpa using ha'
  unfold read?
  rw [nn, nn', same.read? (by omega)]

theorem slice_eleven (b : Bytes) (p : Nat) (fits : p + 11 ≤ b.size) :
    b.slice p 11 = [b[p], b[p + 1], b[p + 2], b[p + 3], b[p + 4], b[p + 5], b[p + 6], b[p + 7],
      b[p + 8], b[p + 9], b[p + 10]] := by
  apply List.ext_getElem?
  intro i
  rw [Bytes.getElem?_slice]
  match i with
  | 0 | 1 | 2 | 3 | 4 | 5 | 6 | 7 | 8 | 9 | 10 =>
    rw [if_pos (by omega), Array.getElem?_eq_getElem (by omega)]
    rfl
  | i + 11 =>
    rw [if_neg (by omega)]
    rfl

/-- **A header, part by part.**  There is a header at an address exactly if its marker,
    kind, state, size and last word are where they belong. -/
theorem read?_eq_some_iff (b : Bytes) (a : Ref) (header : Header) :
    read? b a = some header ↔
      a ≠ Ref.null ∧ b[a.offset 0]? = some marker ∧ b[a.offset 1]? = some header.kind.byte ∧
        b[a.offset 2]? = some (stateByte header.state) ∧ b.word? (a.offset 3) = some header.size ∧
        b.word? (a.offset 7) = some (stateWord header.state) := by
  obtain ⟨kind, size, state⟩ := header
  unfold read? Bytes.read?
  by_cases null : a = Ref.null
  · subst null
    simp [Ref.isNull, Ref.null]
  have nn : a.isNull = false := by simpa using null
  rw [nn]
  by_cases fits : a.offset 0 + 11 ≤ b.size
  · rw [if_neg (by decide), if_pos fits, Option.bind_some, slice_eleven b _ fits]
    have at' : ∀ k, k < 11 → ∀ (hk : a.offset 0 + k < b.size),
        b[a.offset k]? = some b[a.offset 0 + k] :=
      fun k _ hk => Array.getElem?_eq_getElem hk
    rw [at' 0 (by omega) (by omega), at' 1 (by omega) (by omega), at' 2 (by omega) (by omega)]
    have size_word : b.word? (a.offset 3) = some (Word.ofBytes b[a.offset 0 + 3] b[a.offset 0 + 4]
        b[a.offset 0 + 5] b[a.offset 0 + 6]) := by
      unfold Bytes.word?
      rw [dif_pos (show a.offset 3 + 4 ≤ b.size from by simp only [Ref.offset] at fits ⊢; omega)]
      rfl
    have last_word : b.word? (a.offset 7) = some (Word.ofBytes b[a.offset 0 + 7] b[a.offset 0 + 8]
        b[a.offset 0 + 9] b[a.offset 0 + 10]) := by
      unfold Bytes.word?
      rw [dif_pos (show a.offset 7 + 4 ≤ b.size from by simp only [Ref.offset] at fits ⊢; omega)]
      rfl
    rw [size_word, last_word]
    simp only [decode?, Option.some.injEq, ne_eq, null, not_false_eq_true, true_and]
    constructor
    · intro h
      split at h
      · rename_i hm
        obtain ⟨k, hk, h⟩ := Option.bind_eq_some_iff.1 h
        obtain ⟨st, hst, h⟩ := Option.bind_eq_some_iff.1 h
        cases h
        obtain ⟨hs, hw⟩ := (state?_eq_some_iff _ _ _).1 hst
        exact ⟨hm, (ObjectKind.ofByte?_eq_some_iff _ _).1 hk, hs, rfl, hw⟩
      · cases h
    · rintro ⟨hm, hk, hs, hsize, hw⟩
      have kind_eq := (ObjectKind.ofByte?_eq_some_iff _ _).2 hk
      have state_eq := (state?_eq_some_iff _ _ _).2 ⟨hs, hw⟩
      rw [if_pos (show b[a.offset 0] = marker from hm), kind_eq, state_eq, hsize]
      rfl
  · rw [if_neg (by decide), if_neg fits]
    constructor
    · intro h
      cases h
    · rintro ⟨-, -, -, -, -, hw⟩
      have := (Bytes.word?_eq_some_iff_le b (a.offset 7)).1 ⟨_, hw⟩
      exact absurd this (by simp only [Ref.offset] at fits ⊢; omega)

/-- A header that was stored can be read back. -/
theorem read?_overwrite_encode (b : Bytes) (a : Ref) (header : Header) (nonnull : a ≠ Ref.null)
    (fits : a.offset 11 ≤ b.size) :
    read? (b.overwrite (a.offset 0) header.encode) a = some header := by
  have at11 : a.offset 11 = a.offset 0 + 11 := rfl
  have slice : (b.overwrite (a.offset 0) header.encode).slice (a.offset 0) 11 = header.encode := by
    apply List.ext_getElem?
    intro i
    rw [Bytes.getElem?_slice]
    by_cases hi : i < 11
    · rw [if_pos hi]
      exact Bytes.getElem?_overwrite_self _ _ _ _ (by rw [length_encode]; omega) hi
    · rw [if_neg hi, List.getElem?_eq_none]
      rw [length_encode]
      omega
  have nn : a.isNull = false := by simpa using nonnull
  unfold read? Bytes.read?
  rw [nn, Bytes.size_overwrite, if_pos (show a.offset 0 + 11 ≤ b.size by omega), slice]
  exact decode?_encode header

end Header

end ObjectMachine
