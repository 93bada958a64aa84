import Catalog.Patch.Failure
import Catalog.Patch.Operation
import Catalog.Script.Accessor
import Catalog.Script.Statement

/-!
# The statements of an edit

An edit becomes guards followed by its effect. Guards come first for the source of a copy or a
move, then for the target, and for each of them from the outermost container down. A guard tests
that a member is there, or makes the container that is missing. The values of an edit are never
written into the script; they are bound to parameters, whose names end in the number of the edit.
-/

namespace Catalog.Patch

open Script

/-- How a statement takes part in dropping repeated guards. -/
inductive Role where
  /-- Not repeated while it is in force. -/
  | guard
  /-- Always kept; ends the force of all guards before it. -/
  | removal
  /-- Always kept. -/
  | effect
  deriving DecidableEq, Repr

/-- A statement with its role. -/
structure Emission where
  role : Role
  statement : Statement
  deriving DecidableEq, Repr

namespace Emission

/-- Abort the script unless a condition holds, naming the pointer that it is about. -/
def demand (condition : Expr) (pointer : String) : Emission :=
  ⟨.guard, .when (.not condition) (.explain (.quoted (Failure.missingOpening ++ pointer)))⟩

/-- The member that a segment addresses has to be there. -/
def presence (container : Expr) (s : Segment) (pointer : String) : Emission :=
  demand (s.isPresent container) pointer

/-- A member that is not there becomes an empty map. -/
def creation (container : Expr) (name : String) : Emission :=
  ⟨.guard, .when (.not (.containsKey container (.quoted name)))
    (.assign ((Segment.key name).accessor container) .newMap)⟩

/-- The guard of the container at a depth. Only named members can be made. -/
def ancestor (p : Pointer) (create : Bool) (depth : Nat) (s : Segment) : Emission :=
  let container := Segment.chain (p.parents.take depth)
  match s, create with
  | .key name, true => creation container name
  | s, _ => presence container s (p.ancestorText (depth + 1))

/-- The guards of all containers that a pointer leads through, outermost first. -/
def ancestors (p : Pointer) (create : Bool) : List Emission :=
  p.parents.zipIdx.map fun (s, depth) => ancestor p create depth s

/-- The guards of a pointer whose member has to be there. -/
def existing (p : Pointer) : List Emission :=
  ancestors p false ++ [presence p.container p.key p.text]

/-- The guards of a pointer where a value is put in. A list has to reach up to the position. -/
def insertable (p : Pointer) (create : Bool) : List Emission :=
  ancestors p create ++
    if p.key.isIndex then [demand (p.key.isInsertable p.container) p.text] else []

end Emission

/-- How a value gets into a list. -/
inductive Placement where
  | insert
  | overwrite
  deriving DecidableEq, Repr

/-- The statement that places a value in a list. -/
def Placement.statement (list index value : Expr) : Placement → Statement
  | .insert => .insert list index value
  | .overwrite => .overwrite list index value

/-- Put a value where a pointer leads. -/
def assignment (p : Pointer) (placement : Placement) (value : Expr) : Statement :=
  match p.key with
  | .key _ => .assign p.accessor value
  | .position n =>
    .branch (.isList p.container) (placement.statement p.container (.count n) value)
      (.assign (.item p.container (.quoted (Nat.repr n))) value)
  | _ => placement.statement p.container p.selector value

/-- Remove the member that a pointer leads to. -/
def removal (p : Pointer) : Removal :=
  match p.key with
  | .position n =>
    .choose (.isList p.container) (.remove p.container (.count n))
      (.remove p.container (.quoted (Nat.repr n)))
  | _ => .remove p.container p.selector

/-- Abort the script unless a pointer leads to the expected value. -/
def assertion (p : Pointer) (expected : Expr) : Statement :=
  .when (.differs p.accessor expected) <| .explain <|
    .plus (.plus (.plus (.quoted (Failure.assertionOpening ++ p.text ++ ": expected ")) expected)
      (.quoted " but found ")) p.accessor

namespace Edit

/-- A name that no other edit of a script uses. -/
def localName (p : Pointer) (index : Nat) : String := p.variableName ++ "_" ++ Nat.repr index

/-- The parameter that the edit with this number binds. -/
def parameter? (index : Nat) : Edit → Option (String × Json)
  | .add p value => some (localName p index, value)
  | .replace p value => some (localName p index, value)
  | .test p value => some (localName p index, value)
  | _ => none

/-- The statements of the edit with this number. -/
def emissions (create : Bool) (index : Nat) : Edit → List Emission
  | .add p _ =>
    Emission.insertable p create ++
      [⟨.effect, assignment p .insert (.param (localName p index))⟩]
  | .replace p _ =>
    Emission.existing p ++ [⟨.effect, assignment p .overwrite (.param (localName p index))⟩]
  | .remove p => Emission.existing p ++ [⟨.removal, .discard (removal p)⟩]
  | .test p _ => Emission.existing p ++ [⟨.effect, assertion p (.param (localName p index))⟩]
  | .copy source p =>
    Emission.existing source ++ Emission.insertable p false ++
      [⟨.effect, assignment p .insert source.accessor⟩]
  | .move source p =>
    Emission.existing source ++ Emission.insertable p false ++
      [⟨.removal, .define (localName source index) (removal source)⟩,
        ⟨.effect, assignment p .insert (.binding (localName source index))⟩]

end Edit

end Catalog.Patch
