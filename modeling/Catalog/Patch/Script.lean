import Catalog.Patch.Emission
import Catalog.Patch.Merge
import Catalog.Script.Normal
import Catalog.Text.Lines

/-!
# Patch scripts

A list of operations becomes one script, with a line for every statement that is kept. A guard is
left out while an equal guard before it is still in force. A removal may take members away or move
list elements, so it ends the force of all guards. Either every operation is valid, or the error of
the first one that is not is the answer.
-/

namespace Catalog.Patch

/-- A script with its parameters, and how many statements there were and are left. -/
structure Script where
  source : String
  lang : String
  params : List (String × Json)
  emitted : Nat
  kept : Nat
  deriving Repr

/-- The lines of a script, in the order in which they run. -/
def Script.instructions (s : Script) : List String := Text.lines s.source

/-- The script as a value, without the counts. -/
def Script.toJson (s : Script) : Json :=
  .object [("source", .text s.source), ("lang", .text s.lang), ("params", .object s.params)]

/-- The script language unless another one is asked for. -/
def defaultLang : String := "painless"

/-- The line of a statement. -/
def Emission.line (e : Emission) : String := Catalog.Script.normalize e.statement.text

/-- The statements kept so far, the lines of the guards in force, and the number of statements that
were taken. -/
structure Assembly where
  kept : List Emission
  inForce : List String
  taken : Nat
  deriving Repr

namespace Assembly

/-- Nothing was taken yet. -/
def empty : Assembly := ⟨[], [], 0⟩

/-- Take one more statement. -/
def take (a : Assembly) (e : Emission) : Assembly :=
  match e.role with
  | .guard =>
    if e.line ∈ a.inForce then { a with taken := a.taken + 1 }
    else ⟨a.kept ++ [e], e.line :: a.inForce, a.taken + 1⟩
  | .removal => ⟨a.kept ++ [e], [], a.taken + 1⟩
  | .effect => ⟨a.kept ++ [e], a.inForce, a.taken + 1⟩

/-- The lines of the statements that are kept. -/
def lines (a : Assembly) : List String := a.kept.map Emission.line

end Assembly

/-- Take all statements in order. -/
def assemble (es : List Emission) : Assembly := es.foldl Assembly.take Assembly.empty

/-- The statements of numbered edits. -/
def emissions (create : Bool) (edits : List Edit) : List Emission :=
  edits.zipIdx.flatMap fun (e, index) => e.emissions create index

/-- The parameters of numbered edits. -/
def parameters (edits : List Edit) : List (String × Json) :=
  edits.zipIdx.filterMap fun (e, index) => e.parameter? index

/-- The script of a list of operations. When `create` is set, an addition makes the containers that
are missing. -/
def compile (create : Bool) (lang : String) (operations : List Operation) :
    Except CompileError Script := do
  let edits ← operations.mapM Operation.resolve
  let assembly := assemble (emissions create edits)
  return {
    source := "\n".intercalate assembly.lines
    lang := lang
    params := parameters edits
    emitted := assembly.taken
    kept := assembly.kept.length }

/-- The script of a merge patch. -/
def compileMerge (create : Bool) (lang : String) (merge : Json) : Except CompileError Script := do
  compile create lang (← ofMerge merge)

end Catalog.Patch
