/-
  ObjectMachine/Text/Words.lean
  =============================
  **Words of a text** — the parts of a byte string between its spaces.

  `pieces` cuts at every space and loses nothing: joining the pieces with spaces gives
  the text back.  `split` drops the empty pieces at the end.
-/
namespace ObjectMachine.Words

/-- The code of a space. -/
def space : UInt8 := 32

/-- The pieces of a text between its spaces; there is one more than there are spaces. -/
def pieces : List UInt8 → List (List UInt8)
  | [] => [[]]
  | x :: rest =>
    if x = space then [] :: pieces rest
    else match pieces rest with
      | [] => [[x]]
      | piece :: more => (x :: piece) :: more

/-- The parts of a text between its spaces.  Empty parts at the end are dropped, unless
    the text has no space at all. -/
def split (text : List UInt8) : List (List UInt8) :=
  if text.contains space then ((pieces text).reverse.dropWhile List.isEmpty).reverse
  else [text]

theorem pieces_ne_nil (text : List UInt8) : pieces text ≠ [] := by
  cases text with
  | nil => simp [pieces]
  | cons x rest =>
    simp only [pieces]
    split
    · simp
    · split <;> simp

/-- Joining the pieces with spaces gives the text back. -/
theorem intercalate_pieces (text : List UInt8) : [space].intercalate (pieces text) = text := by
  induction text with
  | nil => rfl
  | cons x rest ih =>
    have step : ∀ piece more, pieces rest = piece :: more →
        pieces (x :: rest) = if x = space then [] :: piece :: more else (x :: piece) :: more := by
      intro piece more h
      simp only [pieces, h]
    cases h : pieces rest with
    | nil => exact absurd h (pieces_ne_nil rest)
    | cons piece more =>
      rw [h] at ih
      rw [step piece more h]
      split
      · subst x
        rw [← ih]
        rfl
      · cases more with
        | nil => simpa [List.intercalate] using ih
        | cons next others =>
          rw [← ih]
          rfl

end ObjectMachine.Words
