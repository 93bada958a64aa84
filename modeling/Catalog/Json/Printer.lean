import Catalog.Json.Basic
import Catalog.Number.Shortest

/-!
# Compact JSON text

The text of a value without any blanks. A double is written with the shortest digits that read back
and always shows that it is one: positionally with a point when the first digit stands between the
fifth place after the point and the sixteenth before it, and with a signed exponent otherwise. In
a string only the quote, the backslash and the control characters below U+0020 are escaped.
-/

namespace Catalog

/-- The text of an integer. -/
def integerText (n : Int) : String :=
  if n < 0 then "-" ++ Nat.repr n.natAbs else Nat.repr n.natAbs

namespace Decimal

/-- The power of ten of the first digit. -/
def leading (d : Decimal) : Int := d.exponent + digitCount d.digits - 1

/-- One digit, a point and the other digits if there are any, and a signed exponent. -/
def scientific (d : Decimal) : String :=
  let mark := if d.leading < 0 then "e-" else "e+"
  let power := mark ++ Nat.repr d.leading.natAbs
  match Nat.toDigits 10 d.digits with
  | first :: [] => String.ofList [first] ++ power
  | first :: rest => String.ofList (first :: '.' :: rest) ++ power
  | [] => power

/-- All places written out, with at least one digit on each side of the point. -/
def positional (d : Decimal) : String :=
  let ds := Nat.toDigits 10 d.digits
  if 0 ≤ d.exponent then
    String.ofList (ds ++ List.replicate d.exponent.toNat '0') ++ ".0"
  else if 0 ≤ d.leading then
    let whole := d.leading.toNat + 1
    String.ofList (ds.take whole ++ '.' :: ds.drop whole)
  else
    "0." ++ String.ofList (List.replicate (-d.leading - 1).toNat '0' ++ ds)

/-- Positional from the fifth place after the point up to the sixteenth before it. -/
def text (d : Decimal) : String :=
  if 16 ≤ d.leading ∨ d.leading ≤ -6 then d.scientific else d.positional

end Decimal

/-- The text of a finite double. -/
def Double.text (x : Double) : String :=
  if x.isNegative then "-" ++ x.shortest.text else x.shortest.text

/-- The text of a number; a double that is not finite has none in JSON and is written as null. -/
def Number.text : Number → String
  | .integer n => integerText n
  | .double x => if x.isFinite then x.text else "null"

namespace Json

/-- The two hexadecimal digits of a code below 256, in lower case. -/
def hexPair (n : Nat) : List Char := [Nat.digitChar (n / 16), Nat.digitChar (n % 16)]

/-- A character as it stands in a string. -/
def escapeChar (c : Char) : List Char :=
  if c = '"' then ['\\', '"']
  else if c = '\\' then ['\\', '\\']
  else if c = '\n' then ['\\', 'n']
  else if c = '\r' then ['\\', 'r']
  else if c = '\t' then ['\\', 't']
  else if c.toNat = 8 then ['\\', 'b']
  else if c.toNat = 12 then ['\\', 'f']
  else if c.toNat < 32 then ['\\', 'u', '0', '0'] ++ hexPair c.toNat
  else [c]

/-- A string with its quotes. -/
def quoted (s : String) : String :=
  String.ofList ('"' :: s.toList.flatMap escapeChar ++ ['"'])

mutual

/-- The compact text of a value. -/
def compact : Json → String
  | .null => "null"
  | .bool true => "true"
  | .bool false => "false"
  | .number n => n.text
  | .text s => quoted s
  | .array items => "[" ++ compactItems items ++ "]"
  | .object members => "\x7b" ++ compactMembers members ++ "\x7d"

/-- The items with commas between them. -/
def compactItems : List Json → String
  | [] => ""
  | [item] => item.compact
  | item :: rest => item.compact ++ "," ++ compactItems rest

/-- The members with commas between them. -/
def compactMembers : List (String × Json) → String
  | [] => ""
  | [(name, value)] => quoted name ++ ":" ++ value.compact
  | (name, value) :: rest => quoted name ++ ":" ++ value.compact ++ "," ++ compactMembers rest

end

end Json

end Catalog
