/-
  ObjectMachine/Text/Blank.lean
  =============================
  **Blank characters and lines** — what separates words, and what separates
  lines, in a source text.
-/

namespace ObjectMachine.Text

/-- The characters with the Unicode property `White_Space`. -/
def isBlank (c : Char) : Bool :=
  let n := c.toNat
  (0x09 ≤ n && n ≤ 0x0D) || n == 0x20 || n == 0x85 || n == 0xA0 || n == 0x1680 ||
    (0x2000 ≤ n && n ≤ 0x200A) || n == 0x2028 || n == 0x2029 || n == 0x202F ||
    n == 0x205F || n == 0x3000

/-- Drops one carriage return from the end of a line. -/
def dropReturn (line : List Char) : List Char :=
  if line.getLast? = some '\r' then line.dropLast else line

/-- The lines of a text.  A line feed ends a line, together with a carriage
    return right before it; a last line without a line feed is taken as it is. -/
def lines (text : List Char) : List (List Char) :=
  go [] text
where
  /-- Collects the current line in reverse. -/
  go : List Char → List Char → List (List Char)
  | [], [] => []
  | line, [] => [line.reverse]
  | line, '\n' :: rest => dropReturn line.reverse :: go [] rest
  | line, c :: rest => go (c :: line) rest

end ObjectMachine.Text
