import Catalog.Json.Token

/-!
# Reading JSON

The containers that are still open are kept on a stack, so a value of any depth is read by one fold
over its tokens. Members keep the order in which they are written.
-/

namespace Catalog.Json

/-- A container that is still open. Items and members are collected in reverse. -/
inductive Frame where
  | array (items : List Json)
  | object (members : List (String × Json)) (name : String)

/-- What may come next. -/
inductive Expectation where
  | value
  | valueOrClose
  | name
  | nameOrClose
  | colon
  | separator

/-- The open containers, what may come next, and the whole value once it is read. -/
structure Reading where
  stack : List Frame
  expect : Expectation
  root : Option Json

namespace Reading

/-- Put a complete value into the innermost open container. -/
def put (stack : List Frame) (value : Json) : Reading :=
  match stack with
  | [] => ⟨[], .separator, some value⟩
  | .array items :: rest => ⟨.array (value :: items) :: rest, .separator, none⟩
  | .object members name :: rest =>
    ⟨.object ((name, value) :: members) name :: rest, .separator, none⟩

/-- Close the innermost container. -/
def close (stack : List Frame) (isArray : Bool) : Option Reading :=
  match stack with
  | .array items :: rest => if isArray then some (put rest (.array items.reverse)) else none
  | .object members _ :: rest =>
    if isArray then none else some (put rest (.object members.reverse))
  | [] => none

/-- Begin a value where one may stand. -/
def start (r : Reading) (stack : List Frame) (expect : Expectation) : Option Reading :=
  match r.expect with
  | .value => some ⟨stack, expect, none⟩
  | .valueOrClose => some ⟨stack, expect, none⟩
  | _ => none

/-- Read a scalar: a value, or the name of a member. -/
def scalar (r : Reading) (value : Json) : Option Reading :=
  match r.expect, r.stack, value with
  | .value, stack, _ => some (put stack value)
  | .valueOrClose, stack, _ => some (put stack value)
  | .name, .object members _ :: rest, .text name =>
    some ⟨.object members name :: rest, .colon, none⟩
  | .nameOrClose, .object members _ :: rest, .text name =>
    some ⟨.object members name :: rest, .colon, none⟩
  | _, _, _ => none

/-- Read one token. -/
def step (r : Reading) : Token → Option Reading
  | .openArray => r.start (.array [] :: r.stack) .valueOrClose
  | .openObject => r.start (.object [] "" :: r.stack) .nameOrClose
  | .closeArray =>
    match r.expect with
    | .separator => close r.stack true
    | .valueOrClose => close r.stack true
    | _ => none
  | .closeObject =>
    match r.expect with
    | .separator => close r.stack false
    | .nameOrClose => close r.stack false
    | _ => none
  | .comma =>
    match r.expect, r.stack with
    | .separator, .array items :: rest => some ⟨.array items :: rest, .value, none⟩
    | .separator, .object members name :: rest =>
      some ⟨.object members name :: rest, .name, none⟩
    | _, _ => none
  | .colon =>
    match r.expect with
    | .colon => some ⟨r.stack, .value, none⟩
    | _ => none
  | .scalar value => r.scalar value

end Reading

/-- The value of a JSON text. -/
def parse? (s : String) : Option Json := do
  let tokens ← Token.ofChars? s.toList
  let last ← tokens.foldlM Reading.step ⟨[], .value, none⟩
  last.root

end Catalog.Json
