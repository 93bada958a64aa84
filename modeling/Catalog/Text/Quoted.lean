/-!
# Quoted script text

A string of the script language stands between apostrophes. A backslash and an apostrophe inside it
are escaped by a backslash, and nothing else is, so the string ends at the first apostrophe that no
backslash escapes. Reading a quoted text gives the text back, whatever stands behind it.
-/

namespace Catalog.Text.Quoted

/-- The characters between the apostrophes. -/
def encode : List Char → List Char
  | [] => []
  | '\\' :: rest => '\\' :: '\\' :: encode rest
  | '\'' :: rest => '\\' :: '\'' :: encode rest
  | c :: rest => c :: encode rest

/-- Read the characters up to the closing apostrophe, and what stands behind it. -/
def decode : List Char → Option (List Char × List Char)
  | [] => none
  | '\'' :: rest => some ([], rest)
  | '\\' :: c :: rest => (decode rest).map fun (body, after) => (c :: body, after)
  | c :: rest => (decode rest).map fun (body, after) => (c :: body, after)

/-- A quoted text ends exactly where it was closed. -/
theorem decode_encode (cs rest : List Char) :
    decode (encode cs ++ '\'' :: rest) = some (cs, rest) := by
  fun_induction encode cs with
  | case1 => simp [decode]
  | case2 cs ih => simp [decode, ih]
  | case3 cs ih => simp [decode, ih]
  | case4 c cs hb hq ih =>
    rw [List.cons_append, decode.eq_4 _ _ (by simpa using hq) (by simp_all), ih]
    rfl

end Catalog.Text.Quoted

namespace Catalog.Text

/-- A text as a string of the script language. -/
def quote (s : String) : String := String.ofList ('\'' :: Quoted.encode s.toList ++ ['\''])

end Catalog.Text
