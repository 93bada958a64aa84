import Catalog.Json.Basic
import Catalog.Text.Decimal

/-!
# JSON tokens

A JSON text is cut into brackets, separators and scalars by one pass over its characters. The mode
says what the characters read last belong to, so a pass is a fold and needs no bound. An integer
without fraction and exponent stays exact where sixty-four bits hold it; negative zero and every
other number is read as the nearest double.
-/

namespace Catalog.Json

/-- A token; scalars are values already. -/
inductive Token where
  | openArray
  | closeArray
  | openObject
  | closeObject
  | comma
  | colon
  | scalar (value : Json)

namespace Token

/-- Split a sign off. -/
def sign (cs : List Char) : Bool × List Char :=
  match cs with
  | '-' :: rest => (true, rest)
  | _ => (false, cs)

/-- A whole number with a sign or without one. -/
def signed? : List Char → Option Int
  | '-' :: rest => (Text.digits? rest).map fun n => -(n : Int)
  | '+' :: rest => (Text.digits? rest).map Int.ofNat
  | cs => (Text.digits? cs).map Int.ofNat

/-- The exponent after `e` or `E`; no exponent is zero. -/
def exponent? : List Char → Option Int
  | [] => some 0
  | mark :: rest => if mark = 'e' ∨ mark = 'E' then signed? rest else none

/-- A number from its digits before the point, the text after them and its sign. -/
def number? (cs : List Char) : Option Number := do
  let (negative, body) := sign cs
  let whole := body.takeWhile Char.isDigit
  let rest := body.dropWhile Char.isDigit
  let n ← if Text.isCanonical whole then Text.digits? whole else none
  match rest with
  | [] =>
    if negative then
      if 0 < n ∧ n ≤ Nat.pow 2 63 then return .integer (-n)
      else return .double (← Double.ofDecimal? true n 0)
    else if n < Text.wordBound then return .integer n
    else return .double (← Double.ofDecimal? false n 0)
  | '.' :: tail =>
    let fraction := tail.takeWhile Char.isDigit
    let digits ← Text.digits? (whole ++ fraction)
    let e ← if fraction.isEmpty then none else exponent? (tail.dropWhile Char.isDigit)
    return .double (← Double.ofDecimal? negative digits (e - fraction.length))
  | _ => return .double (← Double.ofDecimal? negative n (← exponent? rest))

/-- The scalar that a run of characters without blanks and punctuation spells. -/
def word? (cs : List Char) : Option Json :=
  if cs = "null".toList then some .null
  else if cs = "true".toList then some (.bool true)
  else if cs = "false".toList then some (.bool false)
  else (number? cs).map .number

/-- What the characters read last belong to. Characters are collected in reverse. -/
inductive Mode where
  | between
  | word (done : List Char)
  | string (done : List Char)
  /-- After a backslash. -/
  | escape (done : List Char)
  /-- Inside a code unit, with the number of digits still to come, after a high surrogate or not. -/
  | unit (done : List Char) (high : Option Nat) (code left : Nat)
  /-- After a high surrogate, whose partner has to follow. -/
  | partner (done : List Char) (high : Nat)
  /-- After a high surrogate and a backslash. -/
  | partnerEscape (done : List Char) (high : Nat)

/-- The tokens so far in reverse, and the mode. -/
structure State where
  tokens : List Token
  mode : Mode

/-- The value of a hexadecimal digit. -/
def hexDigit? (c : Char) : Option Nat :=
  if c.isDigit then some (c.toNat - 48)
  else if 'a' ≤ c ∧ c ≤ 'f' then some (c.toNat - 87)
  else if 'A' ≤ c ∧ c ≤ 'F' then some (c.toNat - 55)
  else none

/-- The character after a backslash, except for `u`. -/
def escaped? (c : Char) : Option Char :=
  if c = '"' ∨ c = '\\' ∨ c = '/' then some c
  else if c = 'n' then some '\n'
  else if c = 'r' then some '\r'
  else if c = 't' then some '\t'
  else if c = 'b' then some '\x08'
  else if c = 'f' then some '\x0c'
  else none

/-- The token of a character outside strings and words, if it is punctuation. -/
def punctuation? (c : Char) : Option Token :=
  if c = '[' then some .openArray
  else if c = ']' then some .closeArray
  else if c = '\x7b' then some .openObject
  else if c = '\x7d' then some .closeObject
  else if c = ',' then some .comma
  else if c = ':' then some .colon
  else none

/-- Blanks between tokens. -/
def isSpace (c : Char) : Bool := c == ' ' || c == '\t' || c == '\n' || c == '\r'

/-- Read a character between tokens. -/
def start (tokens : List Token) (c : Char) : State :=
  if isSpace c then ⟨tokens, .between⟩
  else if c = '"' then ⟨tokens, .string []⟩
  else match punctuation? c with
    | some token => ⟨token :: tokens, .between⟩
    | none => ⟨tokens, .word [c]⟩

/-- A complete code unit: a surrogate waits for its partner, all else is a character. -/
def finishUnit (done : List Char) (high : Option Nat) (code : Nat) : Option Mode :=
  match high with
  | none =>
    if 0xD800 ≤ code ∧ code < 0xDC00 then some (.partner done code)
    else if 0xDC00 ≤ code ∧ code < 0xE000 then none
    else some (.string (Char.ofNat code :: done))
  | some h =>
    if 0xDC00 ≤ code ∧ code < 0xE000 then
      some (.string (Char.ofNat (0x10000 + (h - 0xD800) * 1024 + (code - 0xDC00)) :: done))
    else none

/-- Read one character. -/
def step (s : State) (c : Char) : Option State :=
  match s.mode with
  | .between => some (start s.tokens c)
  | .word done =>
    if isSpace c ∨ c = '"' ∨ (punctuation? c).isSome then
      (word? done.reverse).map fun value => start (.scalar value :: s.tokens) c
    else some ⟨s.tokens, .word (c :: done)⟩
  | .string done =>
    if c = '"' then some ⟨.scalar (.text (String.ofList done.reverse)) :: s.tokens, .between⟩
    else if c = '\\' then some ⟨s.tokens, .escape done⟩
    else some ⟨s.tokens, .string (c :: done)⟩
  | .escape done =>
    if c = 'u' then some ⟨s.tokens, .unit done none 0 4⟩
    else (escaped? c).map fun e => ⟨s.tokens, .string (e :: done)⟩
  | .unit done high code left => do
    let code := code * 16 + (← hexDigit? c)
    if left ≤ 1 then return ⟨s.tokens, ← finishUnit done high code⟩
    else return ⟨s.tokens, .unit done high code (left - 1)⟩
  | .partner done high => if c = '\\' then some ⟨s.tokens, .partnerEscape done high⟩ else none
  | .partnerEscape done high =>
    if c = 'u' then some ⟨s.tokens, .unit done (some high) 0 4⟩ else none

/-- The tokens of a text. -/
def ofChars? (cs : List Char) : Option (List Token) := do
  let last ← cs.foldlM step ⟨[], .between⟩
  match last.mode with
  | .between => return last.tokens.reverse
  | .word done => return (.scalar (← word? done.reverse) :: last.tokens).reverse
  | _ => none

end Token

end Catalog.Json
