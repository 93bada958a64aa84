import Catalog.Error
import Catalog.Pointer.Escape
import Catalog.Pointer.Segment

/-!
# Pointers into a document

A pointer is a non-empty list of segments, each written after a slash. Its last segment is the
addressed member, the others lead to the container of that member. Only the last segment may be the
end of a list, and no pointer holds a line break, so that it can be named on a single line.
-/

namespace Catalog

/-- A resolved pointer, together with the text it was read from. -/
structure Pointer where
  text : String
  /-- The segments that lead to the container, outermost first. -/
  parents : List Segment
  /-- The last segment. -/
  key : Segment
  deriving DecidableEq, Repr

namespace Pointer

/-- All segments, outermost first. -/
def segments (p : Pointer) : List Segment := p.parents ++ [p.key]

/-- Read one escaped segment. -/
def unescape (s : String) : Except CompileError String :=
  match unescapeChars? s.toList with
  | some cs => .ok (String.ofList cs)
  | none => .error (.path s .badEscape)

/-- Read the segments of a pointer text without its first slash. -/
def readSegments (body : List Char) : Except CompileError (List Segment) :=
  (body.splitOn '/').mapM fun piece => do return Segment.ofText (← unescape (String.ofList piece))

/-- A line feed or a carriage return. -/
def isLineBreak (c : Char) : Bool := c == '\n' || c == '\r'

/-- Read a pointer. The text without any segment is refused, since it addresses no member. -/
def resolve (text : String) : Except CompileError Pointer :=
  match text.toList with
  | '/' :: body =>
    if body.any isLineBreak then .error (.path text .lineBreak)
    else do
      let segments ← readSegments body
      let parents := segments.dropLast
      if parents.contains .append then throw (.path text .endInside)
      return ⟨text, parents, segments.getLast?.getD .append⟩
  | _ => .error (.path text .notAbsolute)

/-- The pointer addresses the end of a list. -/
def isAppend (p : Pointer) : Bool := p.key == .append

/-- The pointer is another one or leads below it. -/
def isWithin (p q : Pointer) : Bool := q.segments.isPrefixOf p.segments

/-- The text of the first segments of a pointer, still escaped. -/
def ancestorText (p : Pointer) (depth : Nat) : String :=
  String.ofList (['/'].intercalate ((p.text.toList.splitOn '/').take (depth + 1)))

/-- The texts of the segments that lead to the container, joined by points. -/
def nest (p : Pointer) : String := ".".intercalate (p.parents.map Segment.text)

/-- Names that mean something else to the script language. -/
def reservedNames : List String :=
  ["if", "else", "while", "do", "for", "in", "continue", "break", "return", "new", "try", "catch",
    "throw", "this", "instanceof", "def", "null", "true", "false", "ctx", "params"]

/-- Replace everything but ASCII letters and digits by an underscore. -/
def sanitize (cs : List Char) : List Char := cs.map fun c => if c.isAlphanum then c else '_'

/-- An identifier made of the segments. An underscore is put in front of a name that is empty,
starts with a digit or is reserved. -/
def variableName (p : Pointer) : String :=
  let name := sanitize ("_".intercalate (p.segments.map Segment.text)).toList
  let startsBadly := name.head?.all Char.isDigit
  if startsBadly || reservedNames.contains (String.ofList name) then String.ofList ('_' :: name)
  else String.ofList name

end Pointer

end Catalog
