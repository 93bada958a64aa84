import Catalog.Proofs.Script.Syntax

/-!
# The atoms of script text

Most of a script text is fixed by the grammar of the language. What is not are its atoms: quoted
literals, names of members behind a point, and names of parameters and bindings. A text is well
written exactly when all of its atoms are, so what stands in a script can be told from its atoms.
-/

namespace Catalog.Script

/-- A part of a script text that the grammar leaves open. -/
inductive Atom where
  | literal (text : String)
  /-- The name of a member behind a point. -/
  | member (name : String)
  /-- The name of a parameter or of a binding. -/
  | value (name : String)
  deriving DecidableEq, Repr

/-- A name in code is a word, and a quoted text a single line. -/
def Atom.WellWritten : Atom → Prop
  | literal s => Text.SingleLine s
  | member name => IsWord name
  | value name => IsWord name

/-- All atoms are well written. -/
def AllWellWritten (as : List Atom) : Prop := ∀ a ∈ as, a.WellWritten

@[simp] theorem allWellWritten_nil : AllWellWritten [] := by simp [AllWellWritten]

@[simp] theorem allWellWritten_cons (a : Atom) (as : List Atom) :
    AllWellWritten (a :: as) ↔ a.WellWritten ∧ AllWellWritten as := List.forall_mem_cons

@[simp] theorem allWellWritten_append (as bs : List Atom) :
    AllWellWritten (as ++ bs) ↔ AllWellWritten as ∧ AllWellWritten bs := List.forall_mem_append

namespace Expr

/-- The atoms of an expression. -/
def atoms : Expr → List Atom
  | source => []
  | param name => [.value name]
  | binding name => [.value name]
  | quoted s => [.literal s]
  | count _ => []
  | newMap => []
  | field c name => c.atoms ++ [.member name]
  | item c k => c.atoms ++ k.atoms
  | size c => c.atoms
  | minus a b => a.atoms ++ b.atoms
  | plus a b => a.atoms ++ b.atoms
  | containsKey c k => c.atoms ++ k.atoms
  | isList c => c.atoms
  | greater a b => a.atoms ++ b.atoms
  | atLeast a b => a.atoms ++ b.atoms
  | differs a b => a.atoms ++ b.atoms
  | not a => a.atoms
  | and a b => a.atoms ++ b.atoms
  | or a b => a.atoms ++ b.atoms
  | choose c a b => c.atoms ++ a.atoms ++ b.atoms

theorem wellWritten_iff (e : Expr) : e.WellWritten ↔ AllWellWritten e.atoms := by
  induction e with
  | _ => simp_all [WellWritten, atoms, Atom.WellWritten]

/-- The quoted tokens of an expression are its literals. -/
theorem quoted_mem_tokens (e : Expr) (s : String) :
    Token.quoted s ∈ e.tokens ↔ Atom.literal s ∈ e.atoms := by
  fun_induction Expr.tokens e <;> simp_all [atoms]

end Expr

namespace Removal

/-- The atoms of a removal. -/
def atoms : Removal → List Atom
  | remove c k => c.atoms ++ k.atoms
  | choose c a b => c.atoms ++ a.atoms ++ b.atoms

theorem wellWritten_iff (r : Removal) : r.WellWritten ↔ AllWellWritten r.atoms := by
  induction r with
  | remove c k => simp [WellWritten, atoms, Expr.wellWritten_iff]
  | choose c a b iha ihb =>
    simp [WellWritten, atoms, Expr.wellWritten_iff, iha, ihb]

/-- The quoted tokens of a removal are its literals. -/
theorem quoted_mem_tokens (r : Removal) (s : String) :
    Token.quoted s ∈ r.tokens ↔ Atom.literal s ∈ r.atoms := by
  induction r with
  | remove c k => simp [tokens, atoms, Expr.quoted_mem_tokens]
  | choose c a b iha ihb => simp [tokens, atoms, Expr.quoted_mem_tokens, iha, ihb]

end Removal

namespace Statement

/-- The atoms of a statement. -/
def atoms : Statement → List Atom
  | when c body => c.atoms ++ body.atoms
  | branch c a b => c.atoms ++ a.atoms ++ b.atoms
  | explain reason => reason.atoms
  | assign place value => place.atoms ++ value.atoms
  | insert list index value => list.atoms ++ index.atoms ++ value.atoms
  | overwrite list index value => list.atoms ++ index.atoms ++ value.atoms
  | discard removal => removal.atoms
  | define name removal => .value name :: removal.atoms

theorem wellWritten_iff (s : Statement) : s.WellWritten ↔ AllWellWritten s.atoms := by
  induction s with
  | define name removal =>
    rw [WellWritten, atoms, allWellWritten_cons, Removal.wellWritten_iff, Atom.WellWritten]
  | _ =>
    simp_all [WellWritten, atoms, Expr.wellWritten_iff, Removal.wellWritten_iff]

/-- The quoted tokens of a statement are its literals. -/
theorem quoted_mem_tokens (st : Statement) (s : String) :
    Token.quoted s ∈ st.tokens ↔ Atom.literal s ∈ st.atoms := by
  induction st <;>
    simp_all [tokens, atoms, Expr.quoted_mem_tokens, Removal.quoted_mem_tokens]

end Statement

end Catalog.Script
