import Catalog.Filter.Basic

/-!
# Reading filters

A filter is written as an object with an operator `op` and a list `args` of arguments. Operator
names have aliases and ASCII case does not count. The two operands of a comparison may stand in
either order. Connectives nest at most sixty-four levels deep.
-/

namespace Catalog

/-- What an operator name asks for. -/
inductive Operator where
  | connective (op : Connective)
  | comparison (op : Comparison)
  | like
  | between
  | oneOf
  | spatial (relation : Relation)
  deriving DecidableEq, Repr

namespace Operator

/-- The names of all operators, in lower case. -/
def names : List (String × Operator) :=
  [("and", .connective .all), ("or", .connective .any), ("not", .connective .none),
    ("=", .comparison .eq), ("eq", .comparison .eq),
    ("<>", .comparison .neq), ("!=", .comparison .neq), ("neq", .comparison .neq),
    ("ne", .comparison .neq),
    ("<", .comparison .lt), ("lt", .comparison .lt),
    ("<=", .comparison .lte), ("lte", .comparison .lte), ("le", .comparison .lte),
    (">", .comparison .gt), ("gt", .comparison .gt),
    (">=", .comparison .gte), ("gte", .comparison .gte), ("ge", .comparison .gte),
    ("isnull", .comparison .isNull), ("is_null", .comparison .isNull),
    ("like", .like), ("between", .between), ("in", .oneOf),
    ("s_intersects", .spatial .intersects), ("s_contains", .spatial .contains),
    ("s_within", .spatial .within), ("s_disjoint", .spatial .disjoint)]

/-- The operator with a name. -/
def ofName? (name : String) : Option Operator := names.lookup name.toLower

end Operator

namespace Filter

/-- How many connectives a condition may stand below. -/
def maxDepth : Nat := 64

/-- The name in a reference to a property. -/
def property? : Json → Option String
  | .object [("property", .text name)] => some name
  | _ => none

/-- The property that an argument refers to. -/
def readProperty (operator : String) (v : Json) : Except CompileError String :=
  match property? v with
  | some name => .ok name
  | none => .error (.argumentType operator v)

/-- Read a list of literals. -/
def readLiterals (operator : String) : Json → Except CompileError (List Literal)
  | .array items => items.mapM (Literal.read operator)
  | v => .error (.argumentType operator v)

/-- Read a comparison of a property with a literal, in either order. -/
def readComparison (op : Comparison) (operator : String) (a b : Json) :
    Except CompileError Filter :=
  match property? a, property? b with
  | some property, _ => do
    let literal ← Literal.read operator b
    return .comparison op property (some literal)
  | none, some property => do
    let literal ← Literal.read operator a
    return .comparison op.swapped property (some literal)
  | none, none => .error (.argumentType operator a)

/-- Read a pattern match. The pattern is looked at first. -/
def readLike (operator : String) (a b : Json) : Except CompileError Filter :=
  match b with
  | .text pattern => return .like (← readProperty operator a) pattern
  | _ => .error (.argumentType operator b)

/-- Read a range of a property with both bounds. -/
def readBetween (operator : String) (a lower upper : Json) : Except CompileError Filter := do
  let property ← readProperty operator a
  let lower ← Literal.read operator lower
  return .between property lower (← Literal.read operator upper)

/-- Read a list of alternatives for a property. -/
def readOneOf (operator : String) (a b : Json) : Except CompileError Filter := do
  let property ← readProperty operator a
  return .oneOf property (← readLiterals operator b)

/-- Read a relation to a geometry, which has to be an object and is kept as it is. -/
def readSpatial (relation : Relation) (operator : String) (a b : Json) :
    Except CompileError Filter := do
  let property ← readProperty operator a
  match b with
  | .object _ => return .spatial relation property b
  | _ => throw (.argumentType operator b)

/-- Read a leaf. The number of arguments is checked first. -/
def readLeaf (op : Operator) (operator : String) (args : List Json) : Except CompileError Filter :=
  let wrongCount (n : Nat) : Except CompileError Filter :=
    .error (.arity operator (.exactly n) args.length)
  match op, args with
  | .comparison .isNull, [a] => return .comparison .isNull (← readProperty operator a) none
  | .comparison .isNull, _ => wrongCount 1
  | .comparison op, [a, b] => readComparison op operator a b
  | .comparison _, _ => wrongCount 2
  | .like, [a, b] => readLike operator a b
  | .like, _ => wrongCount 2
  | .between, [a, lower, upper] => readBetween operator a lower upper
  | .between, [a, .array [lower, upper]] => readBetween operator a lower upper
  | .between, [_, range] => .error (.argumentType operator range)
  | .between, _ => wrongCount 3
  | .oneOf, [a, b] => readOneOf operator a b
  | .oneOf, _ => wrongCount 2
  | .spatial relation, [a, b] => readSpatial relation operator a b
  | .spatial _, _ => wrongCount 2
  | .connective _, _ => .error (.unknownOperator operator)

/-- The operator and the arguments of a filter object. Without a list there are no arguments. -/
def readCall : Json → Except CompileError (String × List Json)
  | .object members =>
    match members.lookup "op" with
    | some (.text operator) =>
      match members.lookup "args" with
      | some (.array args) => .ok (operator, args)
      | some v => .error (.malformed (.argumentsNotArray operator v))
      | none => .ok (operator, [])
    | _ => .error (.malformed .noOperator)
  | v => .error (.malformed (.notObject v))

/-- Read a filter below which there is room for so many more levels. -/
def readWithin : Nat → Json → Except CompileError Filter
  | 0, _ => .error (.malformed (.tooDeep maxDepth))
  | room + 1, v => do
    let (operator, args) ← readCall v
    match Operator.ofName? operator with
    | none => throw (.unknownOperator operator)
    | some (.connective op) =>
      if args.isEmpty then throw (.arity operator .atLeastOne 0)
      return .connective op (← args.mapM (readWithin room))
    | some op => readLeaf op operator args

/-- Read a filter. -/
def read (v : Json) : Except CompileError Filter := readWithin (maxDepth + 1) v

end Filter

end Catalog
