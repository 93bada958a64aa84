import Catalog.Text.Decimal

/-!
# Pointer segments

A segment addresses one step below a container. Written as `-` it is the end of a list, as a
canonical decimal a list position or a member of that name, as a minus sign and a positive decimal
a position counted from the end of a list, and in every other case the name of a member. No two
texts are read as the same segment, since writing the segment gives the text back.
-/

namespace Catalog

/-- One step below a container. -/
inductive Segment where
  | key (name : String)
  /-- An element of a list, or the member of that name when the container is no list. -/
  | position (index : Nat)
  /-- The element this far before the end of a list; one is the last element. -/
  | fromEnd (distance : Nat)
  /-- One past the last element of a list. -/
  | append
  deriving DecidableEq, Repr

namespace Segment

/-- The distance written after a minus sign. Zero is no distance. -/
def distance? : List Char → Option Nat
  | '-' :: rest => (Text.canonical? rest).filter (0 < ·)
  | _ => none

/-- Read an unescaped segment. -/
def ofText (s : String) : Segment :=
  if s.toList = ['-'] then .append
  else match distance? s.toList with
    | some n => .fromEnd n
    | none => match Text.canonical? s.toList with
      | some n => .position n
      | none => .key s

/-- The unescaped text of a segment. -/
def text : Segment → String
  | .key name => name
  | .position n => Nat.repr n
  | .fromEnd n => "-" ++ Nat.repr n
  | .append => "-"

/-- Writing a segment that was read gives its text back. -/
theorem text_ofText (s : String) : (ofText s).text = s := by
  unfold ofText
  split
  · next h => rw [← String.ofList_toList (s := s), h]; rfl
  · split
    · next n hn =>
      unfold distance? at hn
      split at hn
      · next rest hr =>
        obtain ⟨hc, hp⟩ := Option.filter_eq_some_iff.1 hn
        rw [Text.canonical?_eq_some_iff] at hc
        rw [← String.toList_inj, hr, text, String.toList_append, Nat.toList_repr, ← hc.1]
        rfl
      · simp at hn
    · split
      · next n hn =>
        rw [Text.canonical?_eq_some_iff] at hn
        rw [← String.toList_inj, text, Nat.toList_repr, ← hn.1]
      · rfl

/-- The segment addresses lists. -/
def isIndex : Segment → Bool
  | .key _ => false
  | _ => true

end Segment

end Catalog
