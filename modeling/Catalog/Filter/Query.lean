import Catalog.Filter.Basic
import Catalog.Filter.Like

/-!
# Query objects

A query is an object with an object of operators for each property. It becomes the conjunction of
one condition for every entry, sorted by property and then by operator, so the order in which the
members are written does not matter.
-/

namespace Catalog.Query

/-- The text operand of a text operator, as a pattern that stands for itself. -/
def textPattern (operator : String) : Json → Except CompileError String
  | .text s => .ok (Like.escape s)
  | v => .error (.argumentType operator v)

/-- The comparison with a name, which has to be written exactly. -/
def comparison? (operator : String) : Option Comparison :=
  [.eq, .neq, .lt, .lte, .gt, .gte].find? fun (c : Comparison) => c.name == operator

/-- The condition of one entry. -/
def lowerEntry (property operator : String) (value : Json) : Except CompileError Filter :=
  match comparison? operator with
  | some op => return .comparison op property (some (← Literal.read operator value))
  | none =>
    if operator = "startsWith" then
      return .like property ((← textPattern operator value) ++ "%")
    else if operator = "endsWith" then
      return .like property ("%" ++ (← textPattern operator value))
    else if operator = "contains" then
      return .like property ("%" ++ (← textPattern operator value) ++ "%")
    else if operator = "in" then
      match value with
      | .array items => return .oneOf property (← items.mapM (Literal.read operator))
      | v => throw (.argumentType operator v)
    else throw (.unknownOperator operator)

/-- The conditions of one property. -/
def lowerProperty (property : String) : Json → Except CompileError (List Filter)
  | .object members =>
    (Text.sortEntries members).mapM fun (operator, value) => lowerEntry property operator value
  | v => .error (.argumentType property v)

/-- The filter of a query; a query without entries has none. -/
def lower : Json → Except CompileError (Option Filter)
  | .object members => do
    let groups ← (Text.sortEntries members).mapM fun (property, v) => lowerProperty property v
    match groups.flatten with
    | [] => return none
    | [f] => return some f
    | fs => return some (.connective .all fs)
  | v => .error (.malformed (.queryNotObject v))

end Catalog.Query
