import Catalog.Filter.Basic

/-!
# Search clauses

What the search backend evaluates. Several clauses are combined in a `bool` clause; a range holds
within all of its bounds, and a list of terms when the field equals any of them.
-/

namespace Catalog

/-- A bound of a range. -/
inductive Bound where
  | gte
  | lte
  | gt
  | lt
  deriving DecidableEq, Repr

/-- The written name of a bound. -/
def Bound.name : Bound → String
  | .gte => "gte"
  | .lte => "lte"
  | .gt => "gt"
  | .lt => "lt"

/-- A search clause. -/
inductive Clause where
  | all (clauses : List Clause)
  /-- At least one of the clauses holds. -/
  | any (clauses : List Clause)
  | none (clauses : List Clause)
  /-- A single clause does not hold. -/
  | unless (clause : Clause)
  | present (field : String)
  | term (field : String) (value : Json)
  | range (field : String) (bounds : List (Bound × Json))
  | wildcard (field pattern : String) (caseInsensitive : Bool)
  | terms (field : String) (values : List Json)
  | shape (field : String) (geometry : Json) (relation : Relation)
  deriving Repr, Inhabited

namespace Clause

/-- An object with one member. -/
def single (name : String) (value : Json) : Json := .object [(name, value)]

mutual

/-- A clause as the backend reads it. -/
def toJson : Clause → Json
  | .all clauses => single "bool" (single "filter" (.array (toJsonAll clauses)))
  | .any clauses =>
    single "bool" (.object [("should", .array (toJsonAll clauses)),
      ("minimum_should_match", .ofNat 1)])
  | .none clauses => single "bool" (single "must_not" (.array (toJsonAll clauses)))
  | .unless clause => single "bool" (single "must_not" clause.toJson)
  | .present field => single "exists" (single "field" (.text field))
  | .term field value => single "term" (single field value)
  | .range field bounds =>
    single "range" (single field (.object (bounds.map fun (b, v) => (b.name, v))))
  | .wildcard field pattern caseInsensitive =>
    single "wildcard" (single field (.object [("value", .text pattern),
      ("case_insensitive", .bool caseInsensitive)]))
  | .terms field values => single "terms" (single field (.array values))
  | .shape field geometry relation =>
    single "geo_shape" (single field (.object [("shape", geometry),
      ("relation", .text relation.name)]))

/-- Clauses as the backend reads them. -/
def toJsonAll : List Clause → List Json
  | [] => []
  | c :: rest => c.toJson :: toJsonAll rest

end

end Clause

end Catalog
