import Catalog.Json.Record

/-!
# Updates of containers

An object is a map from names to values and an array a list of values. An update gives a new
container and leaves the old one as it was; a value that is put somewhere is put there as a copy.
-/

namespace Catalog.Json

/-- Members in which a name has a value. A name that is new comes last. -/
def put (name : String) (value : Json) : List (String × Json) → List (String × Json)
  | [] => [(name, value)]
  | (n, v) :: rest => if n = name then (n, value) :: rest else (n, v) :: put name value rest

/-- Members without a name. -/
def erase (name : String) (members : List (String × Json)) : List (String × Json) :=
  members.filter fun m => m.1 != name

/-- The value is a list. -/
def isArray : Json → Bool
  | .array _ => true
  | _ => false

/-- An exact integer. -/
def asInt? : Json → Option Int
  | .number (.integer n) => some n
  | _ => none

end Catalog.Json
