/-
  ObjectMachine/Text/Digits.lean
  ==============================
  **Numbers as text** — decimal and hexadecimal, padded with zeros on the left
  or marked with an explicit sign.
-/

namespace ObjectMachine.Digits

/-- The decimal digits of `n`, with zeros in front up to `width` characters. -/
def padded (width n : Nat) : String :=
  String.ofList ((Nat.toDigits 10 n).leftpad width '0')

/-- The lower-case hexadecimal digits of `n`, with zeros in front up to `width`
    characters. -/
def hex (width n : Nat) : String :=
  String.ofList ((Nat.toDigits 16 n).leftpad width '0')

/-- The upper-case hexadecimal digits of `n`, with zeros in front up to `width`
    characters. -/
def hexUpper (width n : Nat) : String :=
  String.ofList (((Nat.toDigits 16 n).map Char.toUpper).leftpad width '0')

/-- An integer in decimal, with a sign only below zero. -/
def signed : Int → String
  | .ofNat n => Nat.repr n
  | .negSucc n => "-" ++ Nat.repr (n + 1)

/-- An integer in decimal, always with a sign. -/
def withSign : Int → String
  | .ofNat n => "+" ++ Nat.repr n
  | .negSucc n => "-" ++ Nat.repr (n + 1)

end ObjectMachine.Digits
