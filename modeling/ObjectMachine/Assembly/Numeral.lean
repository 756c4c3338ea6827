/-
  ObjectMachine/Assembly/Numeral.lean
  ===================================
  **Numerals** — integers in source text.

  A numeral is an optional minus sign and then either decimal digits or `0x` and
  hexadecimal digits, which may have a sign of their own.  Its value must fit a
  word, read as signed or as unsigned.
-/
import ObjectMachine.Bytes
import ObjectMachine.Fault

namespace ObjectMachine.Numeral

/-- Value of a decimal digit. -/
def decimalDigit? (c : Char) : Option Nat :=
  if c.isDigit then some (c.toNat - 48) else none

/-- Value of a hexadecimal digit of either case. -/
def hexDigit? (c : Char) : Option Nat :=
  if c.isDigit then some (c.toNat - 48)
  else if 'a' ≤ c ∧ c ≤ 'f' then some (c.toNat - 87)
  else if 'A' ≤ c ∧ c ≤ 'F' then some (c.toNat - 55)
  else none

/-- The number that one or more digits stand for. -/
def digits? (base : Nat) (digit? : Char → Option Nat) (cs : List Char) : Option Nat :=
  if cs.isEmpty then none
  else cs.foldlM (fun n c => (digit? c).map (n * base + ·)) 0

/-- The number that hexadecimal digits after an optional sign stand for. -/
def signedHex? : List Char → Option Int
  | '-' :: cs => (digits? 16 hexDigit? cs).map fun n => -(n : Int)
  | '+' :: cs => (digits? 16 hexDigit? cs).map fun n => (n : Int)
  | cs => (digits? 16 hexDigit? cs).map fun n => (n : Int)

/-- The value of a numeral without its minus sign. -/
def magnitude? : List Char → Option Int
  | '0' :: 'x' :: hex => signedHex? hex
  | c :: cs =>
    if c.isDigit then (digits? 10 decimalDigit? (c :: cs)).map fun n => (n : Int) else none
  | [] => none

/-- The word of a value between `-2 ^ 31` and `2 ^ 32 - 1`. -/
def toWord? (value : Int) : Option Word :=
  if -0x80000000 ≤ value ∧ value < wordLimit then some (Word.ofInt value) else none

/-- Reads a numeral; `none` if the characters are not one or its value does not
    fit.  The one value whose negation leaves the host's 64 bits is a fault. -/
def read : List Char → Except Fault (Option Word)
  | '-' :: cs =>
    match magnitude? cs with
    | none => .ok none
    | some value => if value = -0x8000000000000000 then .error .overflow else .ok (toWord? (-value))
  | cs => .ok ((magnitude? cs).bind toWord?)

end ObjectMachine.Numeral
