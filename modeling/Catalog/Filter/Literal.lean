import Catalog.Calendar
import Catalog.Error

/-!
# Literals

The operands that a property is compared with. An instant and a date are tagged texts, which have
to be valid and are kept as they are written.
-/

namespace Catalog

/-- A literal operand. -/
inductive Literal where
  | text (value : String)
  | number (value : Number)
  | boolean (value : Bool)
  | timestamp (value : String)
  | date (value : String)
  deriving DecidableEq, Repr

namespace Literal

/-- The literal is an instant or a date. -/
def isTemporal : Literal → Bool
  | .timestamp _ => true
  | .date _ => true
  | _ => false

/-- The value without its tag. -/
def value : Literal → Json
  | .text s => .text s
  | .number n => .number n
  | .boolean b => .bool b
  | .timestamp s => .text s
  | .date s => .text s

/-- A temporal literal of a kind. -/
def ofTemporal : TemporalKind → String → Literal
  | .timestamp => .timestamp
  | .date => .date

/-- The text is valid for a temporal kind. -/
def isValid : TemporalKind → String → Bool
  | .timestamp => Calendar.isInstant
  | .date => Calendar.isDate

/-- Read the contents of a temporal tag. -/
def readTemporal (kind : TemporalKind) : Json → Except CompileError Literal
  | .text s => if isValid kind s then .ok (ofTemporal kind s) else .error (.literal kind s)
  | v => .error (.literal kind v.compact)

/-- Read an operand of the named operator. -/
def read (operator : String) : Json → Except CompileError Literal
  | .text s => .ok (.text s)
  | .number n => .ok (.number n)
  | .bool b => .ok (.boolean b)
  | .object [(tag, v)] =>
    if tag = TemporalKind.timestamp.name then readTemporal .timestamp v
    else if tag = TemporalKind.date.name then readTemporal .date v
    else .error (.argumentType operator (.object [(tag, v)]))
  | v => .error (.argumentType operator v)

end Literal

end Catalog
