import Catalog.Text.Quoted

/-!
# Script expressions

Expressions of the language in which a stored document is updated, and their text. Conditions and
values share one type. A choice, a conjunction and a disjunction are written with their own
parentheses; no other expression needs any, except a negated list test.
-/

namespace Catalog.Script

/-- An expression without effects. -/
inductive Expr where
  /-- The document that is updated. -/
  | source
  /-- A named value that comes with the script. -/
  | param (name : String)
  /-- A value that an earlier line has named. -/
  | binding (name : String)
  | quoted (text : String)
  | count (n : Nat)
  | newMap
  /-- A member whose name is an identifier. -/
  | field (container : Expr) (name : String)
  /-- A list element or a member. -/
  | item (container key : Expr)
  | size (container : Expr)
  | minus (a b : Expr)
  | plus (a b : Expr)
  | containsKey (container key : Expr)
  | isList (container : Expr)
  | greater (a b : Expr)
  | atLeast (a b : Expr)
  | differs (a b : Expr)
  | not (a : Expr)
  | and (a b : Expr)
  | or (a b : Expr)
  | choose (condition yes no : Expr)
  deriving DecidableEq, Repr

namespace Expr

/-- The text of an expression. -/
def text : Expr → String
  | source => "ctx._source"
  | param name => "params." ++ name
  | binding name => name
  | quoted s => Text.quote s
  | count n => Nat.repr n
  | newMap => "new HashMap()"
  | field c name => c.text ++ "." ++ name
  | item c k => c.text ++ "[" ++ k.text ++ "]"
  | size c => c.text ++ ".size()"
  | minus a b => a.text ++ " - " ++ b.text
  | plus a b => a.text ++ " + " ++ b.text
  | containsKey c k => c.text ++ ".containsKey(" ++ k.text ++ ")"
  | isList c => c.text ++ " instanceof List"
  | greater a b => a.text ++ " > " ++ b.text
  | atLeast a b => a.text ++ " >= " ++ b.text
  | differs a b => a.text ++ " != " ++ b.text
  | not (isList c) => "!(" ++ c.text ++ " instanceof List)"
  | not a => "!" ++ a.text
  | and a b => "(" ++ a.text ++ " && " ++ b.text ++ ")"
  | or a b => "(" ++ a.text ++ " || " ++ b.text ++ ")"
  | choose c a b => "(" ++ c.text ++ " ? " ++ a.text ++ " : " ++ b.text ++ ")"

end Expr

end Catalog.Script
