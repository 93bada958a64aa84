/-!
# Lines of a text

A line ends with a line feed, and a carriage return right before that line feed belongs to the end
as well. What stands behind the last line feed is a line unless it is empty.
-/

namespace Catalog.Text

/-- Drop a carriage return at the end. -/
def dropReturn (cs : List Char) : List Char :=
  if cs.getLast? = some '\r' then cs.dropLast else cs

/-- The lines among the pieces between line feeds. -/
def linesOf : List (List Char) → List (List Char)
  | [] => []
  | [last] => if last.isEmpty then [] else [last]
  | piece :: rest => dropReturn piece :: linesOf rest

/-- The lines of a text, without their ends. -/
def lines (s : String) : List String := (linesOf (s.toList.splitOn '\n')).map String.ofList

end Catalog.Text
