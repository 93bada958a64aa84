/-!
# Escaped pointer segments

Inside a pointer a tilde is written `~0` and a slash `~1`, so that a slash always separates two
segments. Every text is the reading of exactly one written form without a slash.
-/

namespace Catalog.Pointer

/-- Write the characters of a segment. -/
def escapeChars : List Char → List Char
  | [] => []
  | '~' :: rest => '~' :: '0' :: escapeChars rest
  | '/' :: rest => '~' :: '1' :: escapeChars rest
  | c :: rest => c :: escapeChars rest

/-- Read the characters of a segment; a tilde before anything but `0` and `1` is refused. -/
def unescapeChars? : List Char → Option (List Char)
  | [] => some []
  | '~' :: '0' :: rest => (unescapeChars? rest).map ('~' :: ·)
  | '~' :: '1' :: rest => (unescapeChars? rest).map ('/' :: ·)
  | '~' :: _ => none
  | c :: rest => (unescapeChars? rest).map (c :: ·)

/-- A written form reads as the text it was written for. -/
theorem unescapeChars?_escapeChars (cs : List Char) :
    unescapeChars? (escapeChars cs) = some cs := by
  fun_induction escapeChars cs with
  | case1 => rfl
  | case2 rest ih => simp [unescapeChars?, ih]
  | case3 rest ih => simp [unescapeChars?, ih]
  | case4 c rest hs ht ih =>
    rw [unescapeChars?]
    · rw [ih]; rfl
    all_goals simp_all

/-- Between two slashes stands nothing but written forms. -/
theorem eq_escapeChars_of_unescapeChars? {cs ds : List Char} (hs : '/' ∉ cs)
    (h : unescapeChars? cs = some ds) : cs = escapeChars ds := by
  fun_induction unescapeChars? cs generalizing ds with
  | case1 => cases h; rfl
  | case2 rest ih =>
    obtain ⟨es, he, rfl⟩ := Option.map_eq_some_iff.1 h
    rw [escapeChars, ← ih (by simp_all) he]
  | case3 rest ih =>
    obtain ⟨es, he, rfl⟩ := Option.map_eq_some_iff.1 h
    rw [escapeChars, ← ih (by simp_all) he]
  | case4 => simp at h
  | case5 c rest h0 h1 h2 ih =>
    obtain ⟨es, he, rfl⟩ := Option.map_eq_some_iff.1 h
    have hc : c ≠ '/' := by rintro rfl; simp at hs
    have ht : c ≠ '~' := by rintro rfl; simp_all
    rw [escapeChars, ← ih (by simp_all) he]
    all_goals simp_all

/-- The written form of a segment. -/
def escape (s : String) : String := String.ofList (escapeChars s.toList)

end Catalog.Pointer
