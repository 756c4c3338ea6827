/-
  ObjectMachine/Bytes.lean
  ========================
  **Byte buffers and machine words** — the one layer that knows that a word is
  four bytes, most significant first.

  Every arena of the machine (heap, stack, code) is a `Bytes`.  Reading and
  writing go through `read?`, `write?`, `word?` and `writeWord?`, which refuse
  an access that leaves the buffer; what a refusal means is the caller's
  business.  `overwrite` is the only function that changes a buffer (`wipe` is a case of
  it), so `getElem?_overwrite` is the only fact about locality that is ever needed.
-/

namespace ObjectMachine

/-- A machine word: 32 bits, with no sign of its own. -/
abbrev Word := UInt32

/-- A byte buffer. -/
abbrev Bytes := Array UInt8

/-- Size of a word, and of a reference, in bytes. -/
def wordSize : Nat := 4

namespace Word

/-- The word read as a two's complement integer. -/
def signed (w : Word) : Int := w.toInt32.toInt

/-- The word of an integer, taken modulo `2 ^ 32`. -/
def ofInt (n : Int) : Word := UInt32.ofInt n

/-- The difference of two words as signed integers, unless it leaves the 32 bits. -/
def difference? (a b : Word) : Option Word :=
  if -0x80000000 ≤ a.signed - b.signed ∧ a.signed - b.signed < 0x80000000 then some (a - b)
  else none

/-- The four bytes of a word, most significant first. -/
def bytes (w : Word) : List UInt8 :=
  [UInt8.ofNat (w.toNat / 0x1000000), UInt8.ofNat (w.toNat / 0x10000),
   UInt8.ofNat (w.toNat / 0x100), w.toUInt8]

/-- The word whose bytes are `a b c d`, most significant first. -/
def ofBytes (a b c d : UInt8) : Word :=
  UInt32.ofNat (((a.toNat * 0x100 + b.toNat) * 0x100 + c.toNat) * 0x100 + d.toNat)

@[simp] theorem length_bytes (w : Word) : w.bytes.length = 4 := rfl

/-- The word that starts a list of bytes, if four are there. -/
def ofList? : List UInt8 → Option Word
  | a :: b :: c :: d :: _ => some (ofBytes a b c d)
  | _ => none

/-- Reading a word's bytes gives the word back, whatever follows them. -/
theorem ofList?_bytes_append (w : Word) (rest : List UInt8) :
    ofList? (w.bytes ++ rest) = some w := by
  simp only [bytes, List.cons_append, ofList?, ofBytes, UInt8.toNat_ofNat', UInt32.toNat_toUInt8]
  congr 1
  apply UInt32.toNat_inj.1
  rw [UInt32.toNat_ofNat']
  have := w.toNat_lt
  omega

/-- Writing the word of four bytes gives the four bytes back. -/
theorem bytes_ofBytes (a b c d : UInt8) : (ofBytes a b c d).bytes = [a, b, c, d] := by
  have ha := a.toNat_lt
  have hb := b.toNat_lt
  have hc := c.toNat_lt
  have hd := d.toNat_lt
  simp only [bytes, ofBytes, UInt32.toNat_ofNat', List.cons.injEq, and_true]
  refine ⟨?_, ?_, ?_, ?_⟩ <;>
    (apply UInt8.toNat_inj.1
     simp only [UInt8.toNat_ofNat', UInt32.toNat_toUInt8, UInt32.toNat_ofNat']
     omega)

/-- The bytes of a word, taken one by one, give the word back. -/
theorem ofBytes_bytes (w : Word) :
    ofBytes (UInt8.ofNat (w.toNat / 0x1000000)) (UInt8.ofNat (w.toNat / 0x10000))
      (UInt8.ofNat (w.toNat / 0x100)) w.toUInt8 = w :=
  Option.some.inj (ofList?_bytes_append w [])

end Word

namespace Bytes

/-! ### Reading -/

/-- The bytes `[start, start + length)`, as far as the buffer reaches. -/
def slice (b : Bytes) (start length : Nat) : List UInt8 :=
  (b.extract start (start + length)).toList

/-- The bytes `[start, start + length)`, if the buffer holds all of them. -/
def read? (b : Bytes) (start length : Nat) : Option (List UInt8) :=
  if start + length ≤ b.size then some (b.slice start length) else none

/-- The word stored at `start`, if the buffer holds all four bytes. -/
def word? (b : Bytes) (start : Nat) : Option Word :=
  if h : start + 4 ≤ b.size then
    some (Word.ofBytes b[start] b[start + 1] b[start + 2] b[start + 3])
  else none

/-! ### Writing -/

/-- Lays `xs` over the buffer from `start` on; what would fall outside is dropped. -/
def overwrite : Bytes → Nat → List UInt8 → Bytes
  | b, _, [] => b
  | b, start, x :: xs => overwrite (b.setIfInBounds start x) (start + 1) xs

/-- Zeroes `count` bytes from `start` on; what would fall outside is dropped. -/
def wipe : Bytes → (start count : Nat) → Bytes
  | b, _, 0 => b
  | b, start, count + 1 => wipe (b.setIfInBounds start 0) (start + 1) count

/-- Lays `xs` over the buffer from `start` on, if all of it fits. -/
def write? (b : Bytes) (start : Nat) (xs : List UInt8) : Option Bytes :=
  if start + xs.length ≤ b.size then some (b.overwrite start xs) else none

/-- Stores a word at `start`, if all four bytes fit. -/
def writeWord? (b : Bytes) (start : Nat) (w : Word) : Option Bytes :=
  b.write? start w.bytes

@[simp] theorem size_overwrite (b : Bytes) (start : Nat) (xs : List UInt8) :
    (b.overwrite start xs).size = b.size := by
  induction xs generalizing b start with
  | nil => rfl
  | cons x xs ih => simp [overwrite, ih]

/-- Zeroing is writing zeros. -/
theorem wipe_eq_overwrite (b : Bytes) (start count : Nat) :
    b.wipe start count = b.overwrite start (List.replicate count 0) := by
  induction count generalizing b start with
  | zero => rfl
  | succ count ih => rw [wipe, ih, List.replicate_succ, overwrite]

/-- **Writing is local.** A byte inside the written range is the written one, and
    every other byte is what it was. -/
theorem getElem?_overwrite (b : Bytes) (start : Nat) (xs : List UInt8) (i : Nat)
    (fits : start + xs.length ≤ b.size) :
    (b.overwrite start xs)[i]? =
      if start ≤ i ∧ i < start + xs.length then xs[i - start]? else b[i]? := by
  induction xs generalizing b start with
  | nil =>
    have outside : ¬(start ≤ i ∧ i < start + ([] : List UInt8).length) := by
      rintro ⟨low, high⟩
      rw [List.length_nil] at high
      omega
    rw [overwrite, if_neg outside]
  | cons x xs ih =>
    simp only [List.length_cons] at fits
    rw [overwrite, ih _ _ (by simp; omega)]
    simp only [List.length_cons]
    by_cases hi : i = start
    · subst hi
      have hlt : i < b.size := by omega
      rw [if_neg (by omega), if_pos (by omega)]
      simp [hlt]
    · by_cases hr : start + 1 ≤ i ∧ i < start + 1 + xs.length
      · rw [if_pos hr, if_pos (by omega)]
        obtain ⟨k, hk⟩ : ∃ k, i = start + 1 + k := ⟨i - (start + 1), by omega⟩
        subst hk
        simp [show start + 1 + k - start = k + 1 by omega]
      · rw [if_neg hr, if_neg (by omega), Array.getElem?_setIfInBounds_ne (by omega)]

-- from here on writes are known by their lemmas; comparing two buffers never runs them
attribute [irreducible] overwrite wipe

end Bytes

end ObjectMachine
