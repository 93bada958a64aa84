import Catalog.Json.Basic

/-!
# Records in JSON

A record with named fields is written as an object, whose other members are ignored, or as an array
that holds the fields in their declared order. An array may stop early but holds nothing more.
-/

namespace Catalog.Json

/-- The values of the named fields; a field that is not written is none. -/
def record? (names : List String) : Json → Option (List (Option Json))
  | .object members => some (names.map fun name => members.lookup name)
  | .array items =>
    if items.length ≤ names.length then
      some (items.map some ++ List.replicate (names.length - items.length) none)
    else none
  | _ => none

/-- The name of a choice without contents: a text, or an object with that one member, set to
null. -/
def choice? : Json → Option String
  | .text name => some name
  | .object [(name, .null)] => some name
  | _ => none

/-- A field that may be absent or null. -/
def optional? {α : Type} (read? : Json → Option α) : Option Json → Option (Option α)
  | none => some none
  | some .null => some none
  | some v => (read? v).map some

/-- A field with a value to take when it is absent. -/
def defaulted? {α : Type} (default : α) (read? : Json → Option α) : Option Json → Option α
  | none => some default
  | some v => read? v

/-- A truth value. -/
def asBool? : Json → Option Bool
  | .bool b => some b
  | _ => none

/-- An exact natural number. -/
def asNat? : Json → Option Nat
  | .number (.integer n) => n.toNat?
  | _ => none

end Catalog.Json
