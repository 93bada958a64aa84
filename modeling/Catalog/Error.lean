import Catalog.Json.Printer
import Catalog.Text.Order

/-!
# Why a request is refused

Everything that can be wrong with a request is found before any output is made for it. An error
holds its cause; `CompileError.message` has the wording and `CompileError.kind` the label under
which it is counted.
-/

namespace Catalog

/-- Why a pointer or the path of an operation is refused. -/
inductive PathFault where
  /-- The text does not start with a slash. -/
  | notAbsolute
  | lineBreak
  /-- A tilde stands before something other than `0` and `1`. -/
  | badEscape
  /-- The end of a list is addressed before the last segment. -/
  | endInside
  /-- The operation needs an element, and the end of a list is none. -/
  | endTarget (operation : String)
  | endSource
  /-- A value would be moved into itself. -/
  | intoChild
  /-- A merge patch is no object. -/
  | notObject
  deriving DecidableEq, Repr

/-- The wording of a path fault. -/
def PathFault.reason : PathFault → String
  | .notAbsolute => "pointer must start with '/'"
  | .lineBreak => "line breaks are not allowed in pointers"
  | .badEscape => "'~' must be followed by '0' or '1'"
  | .endInside => "'-' may only appear as the last segment"
  | .endTarget operation => "'-' is not a valid " ++ operation ++ " target"
  | .endSource => "'-' is not a valid source"
  | .intoChild => "cannot move a value into one of its own children"
  | .notObject => "merge patch must be a JSON object"

/-- Why a JSON value is not a filter or a query at all. -/
inductive FilterFault where
  | tooDeep (limit : Nat)
  | notObject (value : Json)
  | noOperator
  | argumentsNotArray (operator : String) (value : Json)
  | queryNotObject (value : Json)
  deriving Repr

/-- The wording of a filter fault. -/
def FilterFault.reason : FilterFault → String
  | .tooDeep limit => "nesting deeper than " ++ Nat.repr limit
  | .notObject value => "expected filter object, got " ++ value.compact
  | .noOperator => "missing 'op'"
  | .argumentsNotArray operator value =>
    "'args' of '" ++ operator ++ "' must be an array, got " ++ value.compact
  | .queryNotObject value => "query must be an object, got " ++ value.compact

/-- How many arguments an operator takes. -/
inductive Arity where
  | exactly (count : Nat)
  | atLeastOne
  deriving DecidableEq, Repr

/-- The wording of an arity. -/
def Arity.text : Arity → String
  | .exactly count => Nat.repr count
  | .atLeastOne => "at least 1"

/-- A tagged literal that is checked against the calendar. -/
inductive TemporalKind where
  | timestamp
  | date
  deriving DecidableEq, Repr

/-- The tag of a temporal literal. -/
def TemporalKind.name : TemporalKind → String
  | .timestamp => "timestamp"
  | .date => "date"

/-- An operand of a patch operation that may be absent. -/
inductive Operand where
  | value
  | source
  deriving DecidableEq, Repr

/-- The member that holds the operand. -/
def Operand.name : Operand → String
  | .value => "value"
  | .source => "from"

/-- The cause for which a request is refused. -/
inductive CompileError where
  /-- A backslash in a pattern escapes nothing; the position counts characters before it. -/
  | escapeSequence (pattern : String) (position : Nat)
  | argumentType (operator : String) (value : Json)
  /-- Fields that the catalog does not define, in increasing order and once each. -/
  | undefinedFields (names : List String)
  | unknownOperator (operator : String)
  | arity (operator : String) (expected : Arity) (actual : Nat)
  | malformed (fault : FilterFault)
  | literal (kind : TemporalKind) (text : String)
  | path (pointer : String) (fault : PathFault)
  | missingOperand (operation : String) (operand : Operand)
  | direction (text : String)
  deriving Repr

namespace CompileError

/-- The error for a list of undefined fields, whatever their order and repetitions. -/
def ofFields (names : List String) : CompileError := .undefinedFields (Text.sortDistinct names)

/-- The wording of an error. -/
def message : CompileError → String
  | .escapeSequence pattern position =>
    "Invalid escape sequence in LIKE pattern '" ++ pattern ++ "' at position " ++ Nat.repr position
  | .argumentType operator value =>
    "Invalid argument type for '" ++ operator ++ "': " ++ value.compact
  | .undefinedFields names =>
    "Invalid query fields: " ++ ", ".intercalate names ++
      ". These fields are not defined in the catalog queryables."
  | .unknownOperator operator => "Unknown operator '" ++ operator ++ "'"
  | .arity operator expected actual =>
    "Operator '" ++ operator ++ "' expects " ++ expected.text ++ " argument(s), got " ++
      Nat.repr actual
  | .malformed fault => "Malformed filter: " ++ fault.reason
  | .literal kind text => "Invalid " ++ kind.name ++ " literal: " ++ text
  | .path pointer fault => "Invalid patch path '" ++ pointer ++ "': " ++ fault.reason
  | .missingOperand operation operand =>
    "Operation '" ++ operation ++ "' requires '" ++ operand.name ++ "'"
  | .direction text => "Invalid sort direction '" ++ text ++ "', expected 'asc' or 'desc'"

/-- The label under which an error is counted. -/
def kind : CompileError → String
  | .escapeSequence .. => "invalid_escape_sequence"
  | .argumentType .. => "invalid_argument_type"
  | .undefinedFields .. => "invalid_field"
  | .unknownOperator .. => "unknown_operator"
  | .arity .. => "invalid_arity"
  | .malformed .. => "malformed_filter"
  | .literal .. => "invalid_literal"
  | .path .. => "invalid_path"
  | .missingOperand .. => "missing_operand"
  | .direction .. => "invalid_direction"

end CompileError

end Catalog
