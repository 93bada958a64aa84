import Catalog.Script.Expr

/-!
# Script statements

Statements of the update language and their text. One statement is one line of a script.
-/

namespace Catalog.Script

/-- An expression that removes a member and has the removed value. -/
inductive Removal where
  | remove (container key : Expr)
  | choose (condition : Expr) (yes no : Removal)
  deriving DecidableEq, Repr

/-- The text of a removal. -/
def Removal.text : Removal → String
  | .remove c k => c.text ++ ".remove(" ++ k.text ++ ")"
  | .choose c a b => "(" ++ c.text ++ " ? " ++ a.text ++ " : " ++ b.text ++ ")"

/-- A statement. -/
inductive Statement where
  | when (condition : Expr) (body : Statement)
  | branch (condition : Expr) (yes no : Statement)
  /-- Abort the whole script for a reason. -/
  | explain (reason : Expr)
  | assign (place value : Expr)
  /-- Insert a list element, moving the ones behind it. -/
  | insert (list index value : Expr)
  /-- Replace a list element. -/
  | overwrite (list index value : Expr)
  | discard (removal : Removal)
  /-- Name the removed value for later lines. -/
  | define (name : String) (removal : Removal)
  deriving DecidableEq, Repr

/-- The text of a statement. -/
def Statement.text : Statement → String
  | .when c body => "if (" ++ c.text ++ ") \x7b " ++ body.text ++ " \x7d"
  | .branch c a b =>
    "if (" ++ c.text ++ ") \x7b " ++ a.text ++ " \x7d else \x7b " ++ b.text ++ " \x7d"
  | .explain reason => "Debug.explain(" ++ reason.text ++ ");"
  | .assign place value => place.text ++ " = " ++ value.text ++ ";"
  | .insert list index value => list.text ++ ".add(" ++ index.text ++ ", " ++ value.text ++ ");"
  | .overwrite list index value => list.text ++ ".set(" ++ index.text ++ ", " ++ value.text ++ ");"
  | .discard removal => removal.text ++ ";"
  | .define name removal => "def " ++ name ++ " = " ++ removal.text ++ ";"

end Catalog.Script
