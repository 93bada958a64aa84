import Catalog.Error
import Catalog.Json.Record
import Catalog.Mapping
import Catalog.Text.Blank

/-!
# Sort orders

A sort order is a list of fields with directions. In its text form the fields are separated by
commas, a minus sign asks for the descending order and a plus sign or nothing for the ascending
one; blanks around an item do not count and blank items are skipped.
-/

namespace Catalog

/-- A sort direction. -/
inductive Direction where
  | ascending
  | descending
  deriving DecidableEq, Repr

namespace Direction

/-- The written name of a direction. -/
def name : Direction → String
  | .ascending => "asc"
  | .descending => "desc"

/-- Read a direction; ASCII case does not count. -/
def read (s : String) : Except CompileError Direction :=
  let lower := s.toLower
  if lower = Direction.ascending.name then .ok .ascending
  else if lower = Direction.descending.name then .ok .descending
  else .error (.direction s)

end Direction

/-- A field to sort by. Its direction is still text and ascending when there is none. -/
structure SortField where
  field : String
  direction : Option String
  deriving DecidableEq, Repr

namespace SortField

/-- Read the direction of a field. -/
def readDirection (f : SortField) : Except CompileError Direction :=
  match f.direction with
  | none => .ok .ascending
  | some s => Direction.read s

/-- A field with a direction. -/
def of (field : List Char) (d : Direction) : SortField := ⟨String.ofList field, some d.name⟩

/-- Read one item of the text form, which is not empty. -/
def ofItem (cs : List Char) : SortField :=
  match cs with
  | '-' :: rest => of rest .descending
  | '+' :: rest => of rest .ascending
  | _ => of cs .ascending

/-- Read the text form. -/
def ofText (s : String) : List SortField :=
  (((s.toList.splitOn ',').map Text.trimChars).filter fun cs => !cs.isEmpty).map ofItem

/-- Read a field. -/
def ofJson? (v : Json) : Option SortField := do
  match ← Json.record? ["field", "direction"] v with
  | [some field, direction] =>
    return ⟨← field.asText?, ← Json.optional? Json.asText? direction⟩
  | _ => none

/-- The clause that sorts by a field. -/
def compile (m : Mapping) (f : SortField) : Except CompileError (String × Direction) :=
  return (m.resolve f.field, ← f.readDirection)

end SortField

/-- The clauses of a sort order, each a path and a direction. -/
def compileSort (m : Mapping) (fields : List SortField) :
    Except CompileError (List (String × Direction)) :=
  fields.mapM (SortField.compile m)

/-- A sort clause as the backend reads it. -/
def sortClauseJson (clause : String × Direction) : Json :=
  .object [(clause.1, .object [("order", .text clause.2.name)])]

end Catalog
