import Catalog.Filter.Compile

/-!
# What filters and search clauses mean

The tests of a single field are left open: an interpretation says which documents meet them. Over
these tests a filter is a tree of conditions, whose properties are read at their paths. A search
clause is evaluated as the backend reads it, from its written form and in the words of the backend:
the parts of a `bool` clause hold an array of clauses or a single one, and a form that is not known
has no value.
-/

namespace Catalog

/-- Which documents meet the tests of a single field. -/
structure Interpretation (δ : Type) where
  equals (field : String) (value : Json) (document : δ) : Bool
  /-- The field lies within one bound. -/
  inBound (field : String) (bound : Bound) (value : Json) (document : δ) : Bool
  present (field : String) (document : δ) : Bool
  fits (field wildcard : String) (caseInsensitive : Bool) (document : δ) : Bool
  relates (field : String) (relation : Relation) (geometry : Json) (document : δ) : Bool

section

variable {δ : Type} (i : Interpretation δ) (x : δ)

namespace Filter

/-- What a field is compared with where a literal stands. An instant and a date are the texts that
they are written as. -/
def operand : Literal → Json
  | .text s => .text s
  | .number n => .number n
  | .boolean b => .bool b
  | .timestamp s => .text s
  | .date s => .text s

/-- A timestamp or a date is met at both bounds, any other literal by equality. -/
def literalHolds (field : String) : Literal → Bool
  | .text s => i.equals field (.text s) x
  | .number n => i.equals field (.number n) x
  | .boolean b => i.equals field (.bool b) x
  | .timestamp s => i.inBound field .gte (.text s) x && i.inBound field .lte (.text s) x
  | .date s => i.inBound field .gte (.text s) x && i.inBound field .lte (.text s) x

/-- The meaning of a comparison. Without its literal it has none, and never holds. -/
def comparisonHolds (field : String) : Comparison → Option Literal → Bool
  | .isNull, _ => !i.present field x
  | .eq, some literal => literalHolds i x field literal
  | .neq, some literal => !literalHolds i x field literal
  | .lt, some literal => i.inBound field .lt (operand literal) x
  | .lte, some literal => i.inBound field .lte (operand literal) x
  | .gt, some literal => i.inBound field .gt (operand literal) x
  | .gte, some literal => i.inBound field .gte (operand literal) x
  | _, none => false

/-- A pattern is met by the wildcards that it translates to. -/
def patternHolds (field pattern : String) (caseInsensitive : Bool) : Bool :=
  match Like.translate pattern with
  | .ok wildcard => i.fits field wildcard caseInsensitive x
  | .error _ => false

/-- What a connective makes of the truth of its children. -/
def joined : Connective → List Bool → Bool
  | .all, truths => truths.all id
  | .any, truths => truths.any id
  | .none, truths => !truths.any id

mutual

/-- The document meets a filter. -/
def holds (o : FilterOptions) : Filter → Bool
  | .connective op children => joined op (holdsEach o children)
  | .comparison op property literal =>
    comparisonHolds i x (o.mapping.resolve property) op literal
  | .like property pattern =>
    patternHolds i x (o.mapping.resolve property) pattern o.caseInsensitive
  | .between property lower upper =>
    i.inBound (o.mapping.resolve property) .gte (operand lower) x &&
      i.inBound (o.mapping.resolve property) .lte (operand upper) x
  | .oneOf property values =>
    values.any fun literal => i.equals (o.mapping.resolve property) (operand literal) x
  | .spatial relation property geometry =>
    i.relates (o.mapping.resolve property) relation geometry x

/-- Which of several filters the document meets. -/
def holdsEach (o : FilterOptions) : List Filter → List Bool
  | [] => []
  | f :: rest => holds o f :: holdsEach o rest

end

end Filter

namespace Search

/-- The bound that a word of the backend stands for. -/
def boundOfName? : String → Option Bound
  | "gte" => some .gte
  | "lte" => some .lte
  | "gt" => some .gt
  | "lt" => some .lt
  | _ => none

/-- The relation that a word of the backend stands for. -/
def relationOfName? : String → Option Relation
  | "intersects" => some .intersects
  | "contains" => some .contains
  | "within" => some .within
  | "disjoint" => some .disjoint
  | _ => none

/-- The value lies within a written bound. -/
def evaluateBound (field : String) (bound : String × Json) : Option Bool := do
  return i.inBound field (← boundOfName? bound.1) bound.2 x

/-- A clause of this kind that tests a single field. -/
def evaluateTest (kind : String) (body : Json) : Option Bool :=
  match kind, body with
  | "exists", .object [("field", .text field)] => some (i.present field x)
  | "term", .object [(field, value)] => some (i.equals field value x)
  | "range", .object [(field, .object bounds)] => do
    return (← bounds.mapM (evaluateBound i x field)).all id
  | "wildcard", .object [(field, .object
      [("value", .text wildcard), ("case_insensitive", .bool caseInsensitive)])] =>
    some (i.fits field wildcard caseInsensitive x)
  | "terms", .object [(field, .array values)] =>
    some (values.any fun value => i.equals field value x)
  | "geo_shape", .object [(field, .object [("shape", geometry), ("relation", .text name)])] => do
    return i.relates field (← relationOfName? name) geometry x
  | _, _ => none

/-- What a part of a `bool` clause makes of the truth of its clauses. -/
def joined? (part : String) (truths : List Bool) : Option Bool :=
  match part with
  | "filter" => some (truths.all id)
  | "must_not" => some (!truths.any id)
  | _ => none

/-- What optional clauses make of their truth when this many of them have to hold. -/
def atLeast? (part setting : String) (minimum : Json) (truths : List Bool) : Option Bool :=
  match part, setting, minimum with
  | "should", "minimum_should_match", .number (.integer (.ofNat n)) =>
    some (n ≤ truths.countP id)
  | _, _, _ => none

mutual

/-- The document meets a clause. -/
def evaluate : Json → Option Bool
  | .object [(kind, body)] =>
    if kind = "bool" then evaluateBool body else evaluateTest i x kind body
  | _ => none

/-- The document meets the body of a `bool` clause. -/
def evaluateBool : Json → Option Bool
  | .object [(part, .array clauses)] => (evaluateEach clauses).bind (joined? part)
  | .object [(part, clause)] => (evaluate clause).bind fun truth => joined? part [truth]
  | .object [(part, .array clauses), (setting, minimum)] =>
    (evaluateEach clauses).bind (atLeast? part setting minimum)
  | .object [(part, clause), (setting, minimum)] =>
    (evaluate clause).bind fun truth => atLeast? part setting minimum [truth]
  | _ => none

/-- Which of several clauses the document meets. -/
def evaluateEach : List Json → Option (List Bool)
  | [] => some []
  | clause :: rest => do return (← evaluate clause) :: (← evaluateEach rest)

end

end Search

end

end Catalog
