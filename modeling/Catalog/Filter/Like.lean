import Catalog.Error

/-!
# LIKE patterns

In a pattern `%` stands for any run of characters and `_` for a single one. A backslash before
either of them, or before another backslash, makes it stand for itself, and it may stand before
nothing else. The search backend writes the wildcards `*` and `?`.
-/

namespace Catalog.Like

/-- A character that a backslash has to escape to stand for itself. -/
def isSpecial (c : Char) : Bool := c == '\\' || c == '%' || c == '_'

/-- The backend's character for one that is not escaped. -/
def wildcard (c : Char) : Char := if c = '%' then '*' else if c = '_' then '?' else c

/-- Translate a pattern that starts at a position. The error is the position of the first backslash
that escapes nothing. -/
def translateFrom : Nat → List Char → Except Nat (List Char)
  | _, [] => .ok []
  | n, ['\\'] => .error n
  | n, '\\' :: c :: rest =>
    if isSpecial c then (translateFrom (n + 2) rest).map (c :: ·) else .error n
  | n, c :: rest => (translateFrom (n + 1) rest).map (wildcard c :: ·)

/-- Translate a pattern for the backend. -/
def translate (pattern : String) : Except CompileError String :=
  match translateFrom 0 pattern.toList with
  | .ok cs => .ok (String.ofList cs)
  | .error n => .error (.escapeSequence pattern n)

/-- Put a backslash before every special character. -/
def escapeChars (cs : List Char) : List Char :=
  cs.flatMap fun c => if isSpecial c then ['\\', c] else [c]

/-- An escaped text translates to itself. -/
theorem translateFrom_escapeChars (n : Nat) (cs : List Char) :
    translateFrom n (escapeChars cs) = .ok cs := by
  induction cs generalizing n with
  | nil => rfl
  | cons c rest ih =>
    rw [escapeChars, List.flatMap_cons, ← escapeChars]
    by_cases hc : isSpecial c
    · simp only [hc, if_true, List.cons_append, List.nil_append, translateFrom, ih]
      rfl
    · have hb : c ≠ '\\' := by rintro rfl; simp [isSpecial] at hc
      have hw : wildcard c = c := by simp_all [wildcard, isSpecial]
      simp only [hc, Bool.false_eq_true, if_false, List.cons_append, List.nil_append]
      rw [translateFrom.eq_4 _ _ _ (by simp [hb]) (by simp [hb]), ih, hw]
      rfl

/-- The pattern that stands for a text itself. -/
def escape (s : String) : String := String.ofList (escapeChars s.toList)

end Catalog.Like
