import Catalog.Filter.Literal
import Catalog.Text.Order

/-!
# Filters

A filter is a tree of conditions on the properties of an item. Leaves name one property each.
-/

namespace Catalog

/-- How the children of a node are combined. -/
inductive Connective where
  | all
  | any
  /-- None of the children holds. -/
  | none
  deriving DecidableEq, Repr

/-- The written name of a connective. -/
def Connective.name : Connective → String
  | .all => "and"
  | .any => "or"
  | .none => "not"

/-- How a property is compared with a literal. -/
inductive Comparison where
  | eq
  | neq
  | lt
  | lte
  | gt
  | gte
  /-- The property is absent; there is no literal. -/
  | isNull
  deriving DecidableEq, Repr

namespace Comparison

/-- The name of a comparison in one word. -/
def name : Comparison → String
  | .eq => "eq"
  | .neq => "neq"
  | .lt => "lt"
  | .lte => "lte"
  | .gt => "gt"
  | .gte => "gte"
  | .isNull => "isnull"

/-- The comparison that says the same with its operands exchanged. -/
def swapped : Comparison → Comparison
  | .lt => .gt
  | .lte => .gte
  | .gt => .lt
  | .gte => .lte
  | c => c

end Comparison

/-- How the geometry of an item relates to a given one. -/
inductive Relation where
  | intersects
  | contains
  | within
  | disjoint
  deriving DecidableEq, Repr

/-- The written name of a relation. -/
def Relation.name : Relation → String
  | .intersects => "intersects"
  | .contains => "contains"
  | .within => "within"
  | .disjoint => "disjoint"

/-- A condition on items. -/
inductive Filter where
  | connective (op : Connective) (children : List Filter)
  | comparison (op : Comparison) (property : String) (literal : Option Literal)
  | like (property pattern : String)
  | between (property : String) (lower upper : Literal)
  | oneOf (property : String) (values : List Literal)
  | spatial (relation : Relation) (property : String) (geometry : Json)
  deriving Repr, Inhabited

namespace Filter

mutual

/-- The properties of the leaves from left to right, repetitions kept. -/
def leafProperties : Filter → List String
  | .connective _ children => leafPropertiesAll children
  | .comparison _ property _ => [property]
  | .like property _ => [property]
  | .between property _ _ => [property]
  | .oneOf property _ => [property]
  | .spatial _ property _ => [property]

/-- The properties of the leaves of several filters. -/
def leafPropertiesAll : List Filter → List String
  | [] => []
  | f :: rest => f.leafProperties ++ leafPropertiesAll rest

end

/-- The properties that a filter names, each at its first occurrence. -/
def properties (f : Filter) : List String := Text.appendNew [] f.leafProperties

end Filter

end Catalog
