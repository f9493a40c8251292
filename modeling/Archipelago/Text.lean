namespace Archipelago

/-- Numbers that can be written in messages and identifiers. -/
class Numeral (α : Type) where
  /-- The fewest digits that read back, without an exponent. -/
  plain : α → String
  /-- The fewest digits that read back, marked as a number that need not be whole. -/
  literal : α → String
  /-- Six places after the point. -/
  sixPlaces : α → String

namespace Text

/-- Hexadecimal digits of a control character. -/
def hexadecimal (n : Nat) : List Char :=
  Nat.toDigits 16 n

def escaped : Char → List Char
  | '"' => ['\\', '"']
  | '\\' => ['\\', '\\']
  | '\n' => ['\\', 'n']
  | '\t' => ['\\', 't']
  | '\r' => ['\\', 'r']
  | c =>
    if c.toNat = 0 then ['\\', '0']
    else if c.toNat < 32 ∨ c.toNat = 127 then
      ['\\', 'u', '\x7b'] ++ hexadecimal c.toNat ++ ['\x7d']
    else [c]

/-- A string between quotes, on one line. -/
def quoted (s : String) : String :=
  String.ofList ('"' :: s.toList.flatMap escaped ++ ['"'])

def list (items : List String) : String :=
  "[" ++ ", ".intercalate items ++ "]"

/-- Named fields of a record. -/
def fields (entries : List (String × String)) : String :=
  ", ".intercalate (entries.map fun entry => entry.1 ++ ": " ++ entry.2)

def record (name : String) (entries : List (String × String)) : String :=
  name ++ " \x7b " ++ fields entries ++ " \x7d"

/-- A record that has more fields than it shows. -/
def openRecord (name : String) (entries : List (String × String)) : String :=
  name ++ " \x7b " ++ fields entries ++ ", .. \x7d"

def vector {α : Type} [Numeral α] (xs : List α) : String :=
  list (xs.map Numeral.literal)

end Text

end Archipelago
