import Catalog.Json.Record
import Catalog.Pointer.Basic

/-!
# Patch operations

An operation as it is written: a kind, a path, and the operands that happen to be present. Checking
it yields an edit, which holds exactly the operands of its kind and pointers that are resolved. The
checks run in a fixed order: the operand of the kind, the path, then the source.
-/

namespace Catalog.Patch

/-- What an operation does. -/
inductive Kind where
  | add
  | replace
  | remove
  | test
  | copy
  | move
  deriving DecidableEq, Repr

namespace Kind

/-- The written name of a kind. -/
def name : Kind → String
  | .add => "add"
  | .replace => "replace"
  | .remove => "remove"
  | .test => "test"
  | .copy => "copy"
  | .move => "move"

/-- All kinds. -/
def all : List Kind := [.add, .replace, .remove, .test, .copy, .move]

/-- The kind with a name, which has to be written exactly. -/
def ofName? (s : String) : Option Kind := all.find? fun k => k.name == s

/-- The addressed member has to be there already. -/
def needsTarget : Kind → Bool
  | .replace => true
  | .remove => true
  | .test => true
  | _ => false

end Kind

/-- An operation as it is written. A value that is present may be null. -/
structure Operation where
  kind : Kind
  path : String
  value : Option Json
  source : Option String
  deriving Repr

/-- An operation that can be carried out. -/
inductive Edit where
  | add (target : Pointer) (value : Json)
  | replace (target : Pointer) (value : Json)
  | remove (target : Pointer)
  | test (target : Pointer) (value : Json)
  | copy (source target : Pointer)
  | move (source target : Pointer)
  deriving Repr

namespace Operation

/-- The value, for a kind that needs one. -/
def needValue (o : Operation) : Except CompileError Json :=
  match o.value with
  | some v => .ok v
  | none => .error (.missingOperand o.kind.name .value)

/-- The source, for a kind that needs one. -/
def needSource (o : Operation) : Except CompileError String :=
  match o.source with
  | some s => .ok s
  | none => .error (.missingOperand o.kind.name .source)

/-- The operand that the kind needs is present. -/
def validate (o : Operation) : Except CompileError Unit :=
  match o.kind with
  | .add => o.needValue.map fun _ => ()
  | .replace => o.needValue.map fun _ => ()
  | .test => o.needValue.map fun _ => ()
  | .copy => o.needSource.map fun _ => ()
  | .move => o.needSource.map fun _ => ()
  | .remove => .ok ()

/-- The resolved path. The end of a list is no target for a kind that needs an element. -/
def target (o : Operation) : Except CompileError Pointer := do
  let p ← Pointer.resolve o.path
  if p.isAppend && o.kind.needsTarget then throw (.path o.path (.endTarget o.kind.name))
  return p

/-- A resolved source. The end of a list holds nothing to take. -/
def resolveSource (text : String) : Except CompileError Pointer := do
  let p ← Pointer.resolve text
  if p.isAppend then throw (.path text .endSource)
  return p

/-- The edit that an operation stands for. -/
def resolve (o : Operation) : Except CompileError Edit :=
  match o.kind with
  | .add => do
    let value ← o.needValue
    return .add (← o.target) value
  | .replace => do
    let value ← o.needValue
    return .replace (← o.target) value
  | .test => do
    let value ← o.needValue
    return .test (← o.target) value
  | .remove => return .remove (← o.target)
  | .copy => do
    let text ← o.needSource
    let target ← o.target
    return .copy (← resolveSource text) target
  | .move => do
    let text ← o.needSource
    let target ← o.target
    let source ← resolveSource text
    if target.isWithin source && source.segments.length < target.segments.length then
      throw (.path o.path .intoChild)
    return .move source target

/-- Add a value. -/
def ofAdd (path : String) (value : Json) : Operation := ⟨.add, path, some value, none⟩

/-- Replace the value at a path. -/
def ofReplace (path : String) (value : Json) : Operation := ⟨.replace, path, some value, none⟩

/-- Remove the value at a path. -/
def ofRemove (path : String) : Operation := ⟨.remove, path, none, none⟩

/-- Compare the value at a path. -/
def ofTest (path : String) (value : Json) : Operation := ⟨.test, path, some value, none⟩

/-- Copy a value to a path. -/
def ofCopy (source path : String) : Operation := ⟨.copy, path, none, some source⟩

/-- Move a value to a path. -/
def ofMove (source path : String) : Operation := ⟨.move, path, none, some source⟩

/-- Read an operation. -/
def ofJson? (v : Json) : Option Operation := do
  match ← Json.record? ["op", "path", "value", "from"] v with
  | [some kind, some path, value, source] =>
    let kind ← Kind.ofName? (← kind.choice?)
    return ⟨kind, ← path.asText?, value, ← Json.optional? Json.asText? source⟩
  | _ => none

/-- Write an operation; absent operands are left out. -/
def toJson (o : Operation) : Json :=
  .object <|
    [("op", .text o.kind.name), ("path", .text o.path)] ++
      (o.value.map fun v => ("value", v)).toList ++
      (o.source.map fun s => ("from", .text s)).toList

end Operation

end Catalog.Patch
