import Catalog.Pointer.Basic
import Catalog.Script.Expr

/-!
# Accessors of pointer segments

How a script reaches the member that a segment addresses in a container, and how it tests that the
member is there. A numeric segment is decided when the script runs: it is an element when the
container is a list, and otherwise the member of that name.
-/

namespace Catalog

/-- A name that may follow a point: an ASCII letter or underscore, then letters, digits and
underscores. -/
def isIdentifier (name : String) : Bool :=
  match name.toList with
  | [] => false
  | c :: rest => (c.isAlpha || c == '_') && rest.all fun d => d.isAlphanum || d == '_'

namespace Segment

open Script

/-- The key or list index that a segment selects in a container. -/
def selector (container : Expr) : Segment → Expr
  | .key name => .quoted name
  | .position n => .count n
  | .fromEnd n => .minus (.size container) (.count n)
  | .append => .size container

/-- The member that a segment addresses in a container. -/
def accessor (container : Expr) : Segment → Expr
  | .key name => if isIdentifier name then .field container name else .item container (.quoted name)
  | .position n =>
    .choose (.isList container) (.item container (.count n))
      (.item container (.quoted (Nat.repr n)))
  | s => .item container (s.selector container)

/-- The addressed member is there. The end of a list is there in every list. -/
def isPresent (container : Expr) : Segment → Expr
  | .key name => .containsKey container (.quoted name)
  | .position n =>
    .choose (.isList container) (.greater (.size container) (.count n))
      (.containsKey container (.quoted (Nat.repr n)))
  | .fromEnd n => .and (.isList container) (.atLeast (.size container) (.count n))
  | .append => .isList container

/-- A value can be inserted where an index segment points: in a list up to and including its end,
and always in a container that is no list. -/
def isInsertable (container : Expr) : Segment → Expr
  | .position n => .or (.not (.isList container)) (.atLeast (.size container) (.count n))
  | s => s.isPresent container

/-- The member that a list of segments leads to, from the document down. -/
def chain (segments : List Segment) : Expr := segments.foldl accessor .source

theorem chain_append_singleton (ss : List Segment) (s : Segment) :
    chain (ss ++ [s]) = s.accessor (chain ss) := by
  rw [chain, List.foldl_append]
  rfl

/-- The text of an accessor below a container that is given by its text. -/
def accessorText (container : String) (s : Segment) : String :=
  (s.accessor (.binding container)).text

end Segment

namespace Pointer

open Script

/-- The container of the addressed member. -/
def container (p : Pointer) : Expr := Segment.chain p.parents

/-- The addressed member. -/
def accessor (p : Pointer) : Expr := p.key.accessor p.container

theorem accessor_eq_chain (p : Pointer) : p.accessor = Segment.chain p.segments :=
  (Segment.chain_append_singleton p.parents p.key).symm

/-- The key or list index of the addressed member in its container. -/
def selector (p : Pointer) : Expr := p.key.selector p.container

end Pointer

end Catalog
