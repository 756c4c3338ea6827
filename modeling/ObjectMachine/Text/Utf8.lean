/-
  ObjectMachine/Text/Utf8.lean
  ============================
  **UTF-8** — bytes as text, strictly or with replacement characters.

  `decode?` accepts well-formed sequences only.  `decodeLossy` accepts every byte
  string: it replaces each maximal start of an ill-formed sequence by one U+FFFD.
-/

namespace ObjectMachine.Utf8

/-- Whether a byte is a continuation byte. -/
def isContinuation (x : UInt8) : Bool := 0x80 ≤ x && x ≤ 0xBF

/-- The bytes that may come second after the first byte `x` of a sequence of two
    or more, and how many continuation bytes follow the second one. -/
def secondByte? (x : UInt8) : Option (UInt8 × UInt8 × Nat) :=
  if 0xC2 ≤ x && x ≤ 0xDF then some (0x80, 0xBF, 0)
  else if x == 0xE0 then some (0xA0, 0xBF, 1)
  else if x == 0xED then some (0x80, 0x9F, 1)
  else if 0xE1 ≤ x && x ≤ 0xEF then some (0x80, 0xBF, 1)
  else if x == 0xF0 then some (0x90, 0xBF, 2)
  else if x == 0xF4 then some (0x80, 0x8F, 2)
  else if 0xF1 ≤ x && x ≤ 0xF3 then some (0x80, 0xBF, 2)
  else none

/-- The payload bits of the first byte of a sequence, by the number of continuation
    bytes after the second. -/
def leadBits (x : UInt8) : Nat → Nat
  | 0 => x.toNat % 32
  | 1 => x.toNat % 16
  | _ => x.toNat % 8

/-- Takes `count` continuation bytes onto the value read so far: the value, or
    `none` where they run out, and the bytes left. -/
def continuation (value : Nat) : Nat → List UInt8 → Option Nat × List UInt8
  | 0, rest => (some value, rest)
  | n + 1, y :: rest =>
    if isContinuation y then continuation (value * 64 + y.toNat % 64) n rest
    else (none, y :: rest)
  | _ + 1, [] => (none, [])

/-- The first character of a byte string that starts with `x`, or `none` where the
    sequence is ill-formed, and the bytes after what was read. -/
def next (x : UInt8) (rest : List UInt8) : Option Char × List UInt8 :=
  if x < 0x80 then (some (Char.ofNat x.toNat), rest)
  else match secondByte? x, rest with
    | some (low, high, more), y :: after =>
      if low ≤ y && y ≤ high then
        let (value, left) := continuation (leadBits x more * 64 + y.toNat % 64) more after
        (value.map Char.ofNat, left)
      else (none, y :: after)
    | _, _ => (none, rest)

theorem length_continuation_le (value count : Nat) (xs : List UInt8) :
    (continuation value count xs).2.length ≤ xs.length := by
  induction count generalizing value xs with
  | zero => simp [continuation]
  | succ n ih =>
    cases xs with
    | nil => simp [continuation]
    | cons y ys =>
      simp only [continuation]
      split
      · exact Nat.le_trans (ih _ _) (by simp)
      · exact Nat.le_refl _

/-- Reading a character consumes its first byte. -/
theorem length_next_le (x : UInt8) (rest : List UInt8) :
    (next x rest).2.length ≤ rest.length := by
  unfold next
  split
  · exact Nat.le_refl _
  · split
    · split
      · exact Nat.le_trans (length_continuation_le _ _ _) (by simp)
      · exact Nat.le_refl _
    · exact Nat.le_refl _

/-- The characters of a byte string; `none` marks each ill-formed sequence. -/
def characters : List UInt8 → List (Option Char)
  | [] => []
  | x :: rest => (next x rest).1 :: characters (next x rest).2
termination_by xs => xs.length
decreasing_by
  have := length_next_le x rest
  simp only [List.length_cons]
  omega

/-- The text of a well-formed byte string. -/
def decode? (xs : List UInt8) : Option String := String.fromUTF8? ⟨xs.toArray⟩

/-- The text of a byte string, with U+FFFD for each ill-formed sequence. -/
def decodeLossy (xs : List UInt8) : String :=
  String.ofList ((characters xs).map fun c => c.getD '\uFFFD')

/-- The bytes of a text. -/
def encode (text : String) : List UInt8 := text.toUTF8.data.toList

end ObjectMachine.Utf8
