import Catalog.Text.Blank
import Catalog.Text.Decimal

/-!
# Dates and instants

Which texts are dates and which are instants. The calendar is the Gregorian one, carried on in both
directions, with a leap year zero. An instant follows RFC 3339 with every field at its exact width;
a second of sixty is accepted in every minute. A date leaves the width of its numbers open and may
have blanks in front of each of them.
-/

namespace Catalog.Calendar

/-- A year with a twenty-ninth of February. -/
def isLeapYear (year : Int) : Bool :=
  decide (year % 4 = 0) && (!decide (year % 100 = 0) || decide (year % 400 = 0))

/-- The number of days of a month; a number that is no month has none. -/
def daysInMonth (year : Int) (month : Nat) : Nat :=
  if month = 2 then (if isLeapYear year then 29 else 28)
  else if month ∈ [4, 6, 9, 11] then 30
  else if 1 ≤ month ∧ month ≤ 12 then 31
  else 0

/-- The day exists in the calendar. -/
def isDay (year : Int) (month day : Nat) : Bool :=
  decide (1 ≤ day) && decide (day ≤ daysInMonth year month)

/-- Read a number of exactly this many digits. -/
def fixed? (width : Nat) (cs : List Char) : Option (Nat × List Char) :=
  if cs.length < width then none else (Text.digits? (cs.take width)).map (·, cs.drop width)

/-- Read the longest number of at most this many digits. -/
def upTo? (width : Nat) (cs : List Char) : Option (Nat × List Char) :=
  let ds := (cs.take width).takeWhile Char.isDigit
  (Text.digits? ds).map (·, cs.drop ds.length)

/-- Read one character of a kind. -/
def mark? (p : Char → Bool) : List Char → Option (List Char)
  | [] => none
  | c :: rest => if p c then some rest else none

/-- Skip the fraction of a second, if there is one: a point and at least one digit. -/
def skipFraction? : List Char → Option (List Char)
  | '.' :: rest =>
    if (rest.takeWhile Char.isDigit).isEmpty then none else some (rest.dropWhile Char.isDigit)
  | cs => some cs

/-- The sign of an offset: plus, hyphen or the minus sign U+2212. -/
def isSign (c : Char) : Bool := c == '+' || c == '-' || c.toNat == 0x2212

/-- The text is an offset and nothing else: `Z`, or a sign with hours and minutes below a day. -/
def isOffset (cs : List Char) : Bool :=
  let numeric : Option Bool := do
    let rest ← mark? isSign cs
    let (hours, rest) ← fixed? 2 rest
    let rest ← mark? (· == ':') rest
    let (minutes, rest) ← fixed? 2 rest
    return decide (hours ≤ 23) && decide (minutes ≤ 59) && rest.isEmpty
  cs == ['Z'] || cs == ['z'] || numeric == some true

/-- The text is an instant. -/
def isInstant (s : String) : Bool :=
  let fields : Option Bool := do
    let (year, rest) ← fixed? 4 s.toList
    let rest ← mark? (· == '-') rest
    let (month, rest) ← fixed? 2 rest
    let rest ← mark? (· == '-') rest
    let (day, rest) ← fixed? 2 rest
    let rest ← mark? (fun c => c == 'T' || c == 't' || c == ' ') rest
    let (hour, rest) ← fixed? 2 rest
    let rest ← mark? (· == ':') rest
    let (minute, rest) ← fixed? 2 rest
    let rest ← mark? (· == ':') rest
    let (second, rest) ← fixed? 2 rest
    let rest ← skipFraction? rest
    return isDay year month day && decide (hour ≤ 23) && decide (minute ≤ 59) &&
      decide (second ≤ 60) && isOffset rest
  fields == some true

/-- Read a year: up to four digits, or any number of them behind a sign. -/
def year? (cs : List Char) : Option (Int × List Char) :=
  match cs with
  | '-' :: rest => (upTo? rest.length rest).map fun (n, after) => (-(n : Int), after)
  | '+' :: rest => (upTo? rest.length rest).map fun (n, after) => ((n : Int), after)
  | _ => (upTo? 4 cs).map fun (n, after) => ((n : Int), after)

/-- The text is a date. Years lie between -262143 and 262142. -/
def isDate (s : String) : Bool :=
  let fields : Option Bool := do
    let (year, rest) ← year? (s.toList.dropWhile Text.isBlank)
    let rest ← mark? (· == '-') rest
    let (month, rest) ← upTo? 2 (rest.dropWhile Text.isBlank)
    let rest ← mark? (· == '-') rest
    let (day, rest) ← upTo? 2 (rest.dropWhile Text.isBlank)
    return isDay year month day && decide (-262143 ≤ year) && decide (year ≤ 262142) &&
      rest.isEmpty
  fields == some true

end Catalog.Calendar
