/-!
# Lists of names in code point order

Names are compared by code point. A name list is put in increasing order, or reduced to the first
occurrence of each name with the order kept.
-/

namespace Catalog.Text

/-- The names in increasing order, repetitions kept. -/
def sortNames (names : List String) : List String :=
  names.mergeSort fun a b => decide (a ≤ b)

/-- Keep a name only where it differs from the name before it. -/
def dropRepeats : List String → List String
  | a :: b :: rest => if a = b then dropRepeats (b :: rest) else a :: dropRepeats (b :: rest)
  | names => names

/-- The distinct names in increasing order. -/
def sortDistinct (names : List String) : List String := dropRepeats (sortNames names)

/-- Append the names not yet present, each at its first occurrence. -/
def appendNew (seen : List String) : List String → List String
  | [] => seen
  | name :: rest => appendNew (if name ∈ seen then seen else seen ++ [name]) rest

/-- Sort entries by name in code point order; entries of one name keep their order. -/
def sortEntries {α : Type} (entries : List (String × α)) : List (String × α) :=
  entries.mergeSort fun a b => decide (a.1 ≤ b.1)

end Catalog.Text
