import Catalog.Text.Blank

/-!
# Why a script was aborted

A script that is aborted gives a reason. The reasons begin with one of two openings, by which the
failure can be told apart again.
-/

namespace Catalog.Patch

/-- A failure of a patch when its script was run. -/
inductive Failure where
  | missing (path : String)
  | assertion (path detail : String)
  deriving DecidableEq, Repr

namespace Failure

/-- How the reason of a missing member begins. -/
def missingOpening : String := "Path does not exist: "

/-- How the reason of a failed test begins. -/
def assertionOpening : String := "Test failed at "

/-- The wording of a failure. -/
def text : Failure → String
  | .missing path => "Patch target does not exist: " ++ path
  | .assertion path detail => "Patch test assertion failed at " ++ path ++ ": " ++ detail

/-- What follows an opening. -/
def afterOpening? (opening text : List Char) : Option (List Char) :=
  if text.take opening.length = opening then some (text.drop opening.length) else none

/-- Split at the first colon with a space behind it; without one everything is before it. -/
def splitColon : List Char → List Char × List Char
  | [] => ([], [])
  | ':' :: ' ' :: rest => ([], rest)
  | c :: rest => let (before, after) := splitColon rest; (c :: before, after)

/-- The failure that a reason tells of. Blanks around the reason do not count. -/
def ofReason? (reason : String) : Option Failure :=
  let cs := Text.trimChars reason.toList
  match afterOpening? missingOpening.toList cs with
  | some path => some (.missing (String.ofList path))
  | none =>
    (afterOpening? assertionOpening.toList cs).map fun rest =>
      let (path, detail) := splitColon rest
      .assertion (String.ofList path) (String.ofList detail)

end Failure

end Catalog.Patch
