import Catalog.Filter.Clause
import Catalog.Filter.Like
import Catalog.Mapping

/-!
# Compiling filters

A filter becomes a search clause in which every property is read at its path. A filter can be
compiled under a gate: then every property it names, without the container in front of the name,
has to be among the allowed ones, and this is checked before anything else.
-/

namespace Catalog

/-- What a filter is compiled under. -/
structure FilterOptions where
  mapping : Mapping
  /-- Patterns match letters of either case. -/
  caseInsensitive : Bool
  deriving Repr

namespace Filter

/-- A temporal literal is met by the range from it to itself, any other literal by the term. -/
def equals (field : String) (literal : Literal) : Clause :=
  if literal.isTemporal then .range field [(.gte, literal.value), (.lte, literal.value)]
  else .term field literal.value

/-- Compile a comparison. -/
def compileComparison (op : Comparison) (field : String) :
    Option Literal → Except CompileError Clause
  | none =>
    if op = .isNull then .ok (.unless (.present field))
    else .error (.arity op.name (.exactly 2) 1)
  | some literal =>
    .ok <| match op with
      | .isNull => .unless (.present field)
      | .eq => equals field literal
      | .neq => .none [equals field literal]
      | .lt => .range field [(.lt, literal.value)]
      | .lte => .range field [(.lte, literal.value)]
      | .gt => .range field [(.gt, literal.value)]
      | .gte => .range field [(.gte, literal.value)]

/-- Combine the clauses of a node. -/
def combine : Connective → List Clause → Clause
  | .all => .all
  | .any => .any
  | .none => .none

mutual

/-- Compile a filter without a gate. -/
def compile (o : FilterOptions) : Filter → Except CompileError Clause
  | .connective op [] => .error (.arity op.name .atLeastOne 0)
  | .connective op (f :: rest) => return combine op (← compileAll o (f :: rest))
  | .comparison op property literal => compileComparison op (o.mapping.resolve property) literal
  | .like property pattern => do
    return .wildcard (o.mapping.resolve property) (← Like.translate pattern) o.caseInsensitive
  | .between property lower upper =>
    .ok (.range (o.mapping.resolve property) [(.gte, lower.value), (.lte, upper.value)])
  | .oneOf property values => .ok (.terms (o.mapping.resolve property) (values.map Literal.value))
  | .spatial relation property geometry =>
    .ok (.shape (o.mapping.resolve property) geometry relation)

/-- Compile filters in order; the first error is the answer. -/
def compileAll (o : FilterOptions) : List Filter → Except CompileError (List Clause)
  | [] => .ok []
  | f :: rest => do
    let clause ← f.compile o
    return clause :: (← compileAll o rest)

end

/-- The names that are not allowed, each as it is written. Without a gate every name is allowed. -/
def undefinedNames (allowed : Option (List String)) (names : List String) : List String :=
  match allowed with
  | none => []
  | some fields => names.filter fun name => !fields.contains (Mapping.logicalName name)

/-- Refuse names that are not allowed. -/
def gate (allowed : Option (List String)) (names : List String) : Except CompileError Unit :=
  let undefined := undefinedNames allowed names
  if undefined.isEmpty then .ok () else .error (.ofFields undefined)

/-- Compile a filter under a gate, if there is one. -/
def compileGated (allowed : Option (List String)) (o : FilterOptions) (f : Filter) :
    Except CompileError Clause := do
  gate allowed f.properties
  f.compile o

end Filter

end Catalog
