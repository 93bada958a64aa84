import Catalog.Proofs.Json.Container
import Catalog.Script.Statement

/-!
# What scripts do

A script runs on a document, with the parameters that come with it and the bindings that its lines
have made. Expressions read maps and lists: a member that is absent reads as null, and a list has
nothing outside its bounds. Statements replace the document by an updated one, in which every value
that is put somewhere is a copy. A script has no outcome when it gives a reason to abort or uses a
value in a way that its type or the bounds of a list do not allow; then all its changes are lost.
-/

namespace Catalog.Script

/-- What the script language does with values other than taking them apart. -/
structure Dialect where
  /-- Two values are equal. -/
  equal : Json → Json → Bool
  /-- The text of a value where it is joined to another one. -/
  display : Json → String

/-- What a line of a script works on. -/
structure State where
  document : Json
  params : List (String × Json)
  bindings : List (String × Json)

/-- The value at a key of a map, or at an index of a list. -/
def readAt (container key : Json) : Option Json :=
  match container, key with
  | .object members, .text name => some ((members.lookup name).getD .null)
  | .array items, .number (.integer (.ofNat n)) => items[n]?
  | _, _ => none

/-- A map has a key. -/
def hasKey (container key : Json) : Option Json :=
  match container, key with
  | .object members, .text name => some (.bool (members.lookup name).isSome)
  | _, _ => none

/-- The number of elements of a list or of members of a map. -/
def sizeOf? : Json → Option Json
  | .array items => some (.ofNat items.length)
  | .object members => some (.ofNat members.length)
  | _ => none

/-- Compare two integers. -/
def compare? (test : Int → Int → Bool) (a b : Json) : Option Json := do
  return .bool (test (← a.asInt?) (← b.asInt?))

/-- The container with a value at a key of a map, or at an index of a list. -/
def storeAt (key value container : Json) : Option Json :=
  match container, key with
  | .object members, .text name => some (.object (Json.put name value members))
  | .array items, .number (.integer (.ofNat n)) =>
    if n < items.length then some (.array (items.set n value)) else none
  | _, _ => none

/-- The list with a value inserted at an index, which may be its end. -/
def insertAt (index value list : Json) : Option Json :=
  match list, index with
  | .array items, .number (.integer (.ofNat n)) =>
    if n ≤ items.length then some (.array (items.insertIdx n value)) else none
  | _, _ => none

/-- The list with another value at an index. -/
def overwriteAt (index value list : Json) : Option Json :=
  match list, index with
  | .array items, .number (.integer (.ofNat n)) =>
    if n < items.length then some (.array (items.set n value)) else none
  | _, _ => none

/-- The container without a key of a map or an element of a list. -/
def removeAt (key container : Json) : Option Json :=
  match container, key with
  | .object members, .text name => some (.object (Json.erase name members))
  | .array items, .number (.integer (.ofNat n)) =>
    if n < items.length then some (.array (items.eraseIdx n)) else none
  | _, _ => none

/-- The container with the value at a key changed in place. There is nothing to change at a key
that is absent, since it reads as null. -/
def changeAt (key : Json) (change : Json → Option Json) (container : Json) : Option Json :=
  match container, key with
  | .object members, .text name => do
    let value ← change (← members.lookup name)
    return .object (Json.put name value members)
  | .array items, .number (.integer (.ofNat n)) => do
    let value ← change (← items[n]?)
    return .array (items.set n value)
  | _, _ => none

namespace Expr

/-- The value of an expression. The second operand of a conjunction, a disjunction and a choice is
looked at only when it counts. -/
def eval (d : Dialect) (σ : State) : Expr → Option Json
  | source => some σ.document
  | param name => σ.params.lookup name
  | binding name => σ.bindings.lookup name
  | quoted s => some (.text s)
  | count n => some (.ofNat n)
  | newMap => some (.object [])
  | field c name => do readAt (← c.eval d σ) (.text name)
  | item c k => do readAt (← c.eval d σ) (← k.eval d σ)
  | size c => do sizeOf? (← c.eval d σ)
  | minus a b => do
    return .number (.integer ((← (← a.eval d σ).asInt?) - (← (← b.eval d σ).asInt?)))
  | plus a b => do return .text (d.display (← a.eval d σ) ++ d.display (← b.eval d σ))
  | containsKey c k => do hasKey (← c.eval d σ) (← k.eval d σ)
  | isList c => do return .bool (← c.eval d σ).isArray
  | greater a b => do compare? (fun m n => n < m) (← a.eval d σ) (← b.eval d σ)
  | atLeast a b => do compare? (fun m n => n ≤ m) (← a.eval d σ) (← b.eval d σ)
  | differs a b => do return .bool (!d.equal (← a.eval d σ) (← b.eval d σ))
  | not a => do return .bool (!(← (← a.eval d σ).asBool?))
  | and a b => do if ← (← a.eval d σ).asBool? then b.eval d σ else return .bool false
  | or a b => do if ← (← a.eval d σ).asBool? then return .bool true else b.eval d σ
  | choose c a b => do if ← (← c.eval d σ).asBool? then a.eval d σ else b.eval d σ

/-- The document after a change of the value that an expression refers to. Only members and
elements of the document can be changed. -/
def change (d : Dialect) (σ : State) : Expr → (Json → Option Json) → Option Json
  | source, f => f σ.document
  | field c name, f => c.change d σ (changeAt (.text name) f)
  | item c k, f => do c.change d σ (changeAt (← k.eval d σ) f)
  | choose c a b, f => do
    if ← (← c.eval d σ).asBool? then a.change d σ f else b.change d σ f
  | _, _ => none

/-- The document after a value was assigned to a member or an element. -/
def assign (d : Dialect) (σ : State) (value : Json) : Expr → Option Json
  | field c name => c.change d σ (storeAt (.text name) value)
  | item c k => do c.change d σ (storeAt (← k.eval d σ) value)
  | _ => none

end Expr

/-- The removed value, and the document after the removal. -/
def Removal.eval (d : Dialect) (σ : State) : Removal → Option (Json × Json)
  | remove c k => do
    let key ← k.eval d σ
    return (← readAt (← c.eval d σ) key, ← c.change d σ (removeAt key))
  | choose c a b => do
    if ← (← c.eval d σ).asBool? then a.eval d σ else b.eval d σ

/-- The state after a statement. -/
def Statement.exec (d : Dialect) (σ : State) : Statement → Option State
  | when c body => do if ← (← c.eval d σ).asBool? then body.exec d σ else return σ
  | branch c a b => do if ← (← c.eval d σ).asBool? then a.exec d σ else b.exec d σ
  | explain _ => none
  | assign place value => do
    return { σ with document := ← place.assign d σ (← value.eval d σ) }
  | insert list index value => do
    let change := insertAt (← index.eval d σ) (← value.eval d σ)
    return { σ with document := ← list.change d σ change }
  | overwrite list index value => do
    let change := overwriteAt (← index.eval d σ) (← value.eval d σ)
    return { σ with document := ← list.change d σ change }
  | discard removal => do
    let (_, document) ← removal.eval d σ
    return { σ with document }
  | define name removal => do
    let (value, document) ← removal.eval d σ
    return { σ with document, bindings := (name, value) :: σ.bindings }

/-- The state after statements that run one after the other. -/
def exec (d : Dialect) (statements : List Statement) (σ : State) : Option State :=
  statements.foldlM (Statement.exec d) σ

/-- The document after a script, unless the script aborts. -/
def run (d : Dialect) (params : List (String × Json)) (statements : List Statement)
    (document : Json) : Option Json := do
  return (← exec d statements ⟨document, params, []⟩).document

end Catalog.Script
