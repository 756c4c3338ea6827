/-
  ObjectMachine/Text/Quoted.lean
  ==============================
  **Text in quotes** — the form in which texts appear inside messages: between
  double quotes, with everything that would not show spelled as an escape.
-/
import ObjectMachine.Text.Digits
import ObjectMachine.Text.Visible

namespace ObjectMachine.Text

/-- A character inside quotes. -/
def quoteChar (c : Char) : List Char :=
  if c = '\x00' then ['\\', '0']
  else if c = '\t' then ['\\', 't']
  else if c = '\r' then ['\\', 'r']
  else if c = '\n' then ['\\', 'n']
  else if c = '\\' then ['\\', '\\']
  else if c = '"' then ['\\', '"']
  else if isVisible c then [c]
  else ("\\u\x7b" ++ Digits.hex 1 c.toNat ++ "\x7d").toList

/-- A text between double quotes. -/
def quote (text : String) : String :=
  String.ofList ('"' :: text.toList.flatMap quoteChar ++ ['"'])

end ObjectMachine.Text
