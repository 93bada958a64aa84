/-!
# Normal accessors

A member name with colons cannot follow a point, so a text that writes `.a:b` in an accessor chain
below the document is mended to `['a:b']`. Quoted literals are never touched: the text is first cut
into literals and single characters of code, and only code is matched. A literal ends at the next
apostrophe that no backslash escapes, or else with the text.

A chain starts with `ctx._source` and goes on with steps, each a point and an identifier or a pair
of brackets that holds no bracket. A step can be followed by a colon only when it is the last one,
so the first step with a colon group behind it is the only place where a chain can be mended. One
pass mends every chain once, from left to right and without overlap. Each mended chain takes at
least one colon out of the code, so the passes come to an end, at a text that no pass changes.
-/

namespace Catalog.Script

/-- A character of code, or a whole quoted literal with its apostrophes. -/
inductive Lexeme where
  | code (c : Char)
  | literal (text : List Char)
  deriving DecidableEq, Repr

namespace Lexeme

/-- The text of a lexeme. -/
def text : Lexeme → List Char
  | code c => [c]
  | literal cs => cs

/-- The text of a list of lexemes. -/
def textOf (ls : List Lexeme) : List Char := ls.flatMap text

/-- The rest of a literal after its opening apostrophe, and what stands behind the literal. -/
def literalBody : List Char → List Char × List Char
  | [] => ([], [])
  | '\'' :: rest => (['\''], rest)
  | '\\' :: c :: rest => let (body, after) := literalBody rest; ('\\' :: c :: body, after)
  | c :: rest => let (body, after) := literalBody rest; (c :: body, after)

theorem length_literalBody_le (cs : List Char) : (literalBody cs).2.length ≤ cs.length := by
  fun_induction literalBody cs with
  | case1 => simp
  | case2 => simp
  | case3 c rest body after h ih => simp only [h] at ih; simp; omega
  | case4 c rest _ _ body after h ih => simp only [h] at ih; simp; omega

/-- Cut a text into lexemes. -/
def ofChars : List Char → List Lexeme
  | [] => []
  | c :: rest =>
    if c = '\'' then literal ('\'' :: (literalBody rest).1) :: ofChars (literalBody rest).2
    else code c :: ofChars rest
termination_by cs => cs.length
decreasing_by
  · have := length_literalBody_le rest
    simp only [List.length_cons]
    omega
  · simp

/-- A character that may start an identifier. -/
def isNameStart (c : Char) : Bool := c.isAlpha || c == '_'

/-- A character of a name after its first one, and of a colon group. -/
def isNameRest (c : Char) : Bool := c.isAlphanum || c == '_'

/-- The longest run of code characters of a class, and the rest. -/
def spanCode (p : Char → Bool) : List Lexeme → List Char × List Lexeme
  | code c :: rest =>
    if p c then let (run, after) := spanCode p rest; (c :: run, after) else ([], code c :: rest)
  | ls => ([], ls)

theorem spanCode_append (p : Char → Bool) (ls : List Lexeme) :
    (spanCode p ls).1.map code ++ (spanCode p ls).2 = ls := by
  fun_induction spanCode p ls with
  | case1 c rest h run after hr ih => simp only [hr] at ih; simp [ih]
  | case2 c rest h => simp
  | case3 ls h => simp

theorem length_spanCode_le (p : Char → Bool) (ls : List Lexeme) :
    (spanCode p ls).2.length ≤ ls.length := by
  have h := congrArg List.length (spanCode_append p ls)
  simp only [List.length_append, List.length_map] at h
  omega

/-- The longest run of colon groups, each a colon and a word, and the rest. -/
def colonGroups : List Lexeme → List Char × List Lexeme
  | code ':' :: rest =>
    if (spanCode isNameRest rest).1.isEmpty then ([], code ':' :: rest)
    else
      let more := colonGroups (spanCode isNameRest rest).2
      (':' :: (spanCode isNameRest rest).1 ++ more.1, more.2)
  | ls => ([], ls)
termination_by ls => ls.length
decreasing_by
  have := length_spanCode_le isNameRest rest
  simp only [List.length_cons]
  omega

theorem colonGroups_append (ls : List Lexeme) :
    (colonGroups ls).1.map code ++ (colonGroups ls).2 = ls := by
  fun_induction colonGroups ls with
  | case1 rest h => simp
  | case2 rest h more ih =>
    have := spanCode_append isNameRest rest
    simp only [List.cons_append, List.map_cons, List.map_append, List.append_assoc]
    rw [ih, this]
  | case3 ls h => simp

/-- The inside of a bracket pair with its closing bracket, and what stands behind it. -/
def bracketBody? : List Lexeme → Option (List Lexeme × List Lexeme)
  | [] => none
  | code ']' :: rest => some ([code ']'], rest)
  | code '[' :: _ => none
  | l :: rest => (bracketBody? rest).map fun (body, after) => (l :: body, after)

theorem eq_append_of_bracketBody? {ls : List Lexeme} {b : List Lexeme × List Lexeme}
    (h : bracketBody? ls = some b) : ls = b.1 ++ b.2 := by
  fun_induction bracketBody? ls generalizing b with
  | case1 => simp at h
  | case2 rest => cases h; rfl
  | case3 => simp at h
  | case4 l rest _ _ ih =>
    obtain ⟨⟨body, after⟩, hb, rfl⟩ := Option.map_eq_some_iff.1 h
    simp [ih hb]

end Lexeme

open Lexeme

/-- A place where a chain can be mended: the steps before it, the name with its colon groups, and
what stands behind the name. -/
structure Mend where
  steps : List Lexeme
  name : List Char
  after : List Lexeme

/-- The code characters that start every chain. -/
def chainRoot : List Lexeme := "ctx._source".toList.map code

/-- Follow the steps of a chain to the place where it can be mended. -/
def followSteps? : List Lexeme → Option Mend
  | code '.' :: code c :: rest =>
    if isNameStart c then
      let run := spanCode isNameRest rest
      let groups := colonGroups run.2
      if groups.1.isEmpty then
        (followSteps? run.2).map fun m =>
          { m with steps := code '.' :: code c :: run.1.map code ++ m.steps }
      else some ⟨[], c :: run.1 ++ groups.1, groups.2⟩
    else none
  | code '[' :: rest =>
    match _h : bracketBody? rest with
    | some (body, after) =>
      (followSteps? after).map fun m => { m with steps := code '[' :: body ++ m.steps }
    | none => none
  | _ => none
termination_by ls => ls.length
decreasing_by
  · have := length_spanCode_le isNameRest rest
    simp only [List.length_cons]
    omega
  · have := congrArg List.length (eq_append_of_bracketBody? _h)
    simp only [List.length_cons, List.length_append] at *
    omega

/-- The place to mend in the chain that starts here. -/
def mendAt? (ls : List Lexeme) : Option Mend :=
  if ls.take chainRoot.length = chainRoot then followSteps? (ls.drop chainRoot.length) else none

theorem eq_append_of_followSteps? {ls : List Lexeme} {m : Mend} (h : followSteps? ls = some m) :
    ls = m.steps ++ code '.' :: m.name.map code ++ m.after := by
  fun_induction followSteps? ls generalizing m with
  | case1 c rest hc run groups hg =>
    rename_i ih
    obtain ⟨m', hm, rfl⟩ := Option.map_eq_some_iff.1 h
    have hr := spanCode_append isNameRest rest
    have hi := ih hm
    simp only [List.cons_append, List.append_assoc] at hi ⊢
    rw [← hi, hr]
  | case2 c rest hc run hg =>
    cases h
    have hr := spanCode_append isNameRest rest
    have hq := colonGroups_append run.2
    simp only [List.nil_append, List.map_cons, List.map_append, List.cons_append,
      List.append_assoc]
    rw [hq, hr]
  | case3 => simp at h
  | case4 rest body after hb ih =>
    obtain ⟨m', hm, rfl⟩ := Option.map_eq_some_iff.1 h
    have hi := ih hm
    have hr := eq_append_of_bracketBody? hb
    simp only [List.cons_append, List.append_assoc] at hi ⊢
    rw [← hi, hr]
  | case5 => simp at h
  | case6 => simp at h

theorem eq_append_of_mendAt? {ls : List Lexeme} {m : Mend} (h : mendAt? ls = some m) :
    ls = chainRoot ++ m.steps ++ code '.' :: m.name.map code ++ m.after := by
  unfold mendAt? at h
  split at h
  · next hp =>
    have hl := List.take_append_drop chainRoot.length ls
    rw [hp, eq_append_of_followSteps? h] at hl
    rw [← hl]
    simp only [List.append_assoc]
  · simp at h

/-- A mended chain: the name stands quoted between brackets. -/
def Mend.lexemes (m : Mend) : List Lexeme :=
  chainRoot ++ m.steps ++ [code '[', literal ('\'' :: m.name ++ ['\'']), code ']']

/-- Mend every chain once, from left to right. -/
def mendPass : List Lexeme → List Lexeme
  | [] => []
  | l :: rest =>
    match _h : mendAt? (l :: rest) with
    | some m => m.lexemes ++ mendPass m.after
    | none => l :: mendPass rest
termination_by ls => ls.length
decreasing_by
  · have := congrArg List.length (eq_append_of_mendAt? _h)
    simp only [List.length_append, List.length_cons] at *
    omega
  · simp

/-- The number of colons in code. -/
def colons (ls : List Lexeme) : Nat := ls.count (code ':')

theorem colon_mem_colonGroups {ls : List Lexeme} (h : (colonGroups ls).1.isEmpty = false) :
    ':' ∈ (colonGroups ls).1 := by
  unfold colonGroups at h ⊢
  split
  · split
    · next he => simp [he] at h
    · simp
  · simp at h

theorem colon_mem_name {ls : List Lexeme} {m : Mend} (h : followSteps? ls = some m) :
    ':' ∈ m.name := by
  fun_induction followSteps? ls generalizing m with
  | case1 c rest hc run groups hg =>
    rename_i ih
    obtain ⟨m', hm, rfl⟩ := Option.map_eq_some_iff.1 h
    exact @ih m' hm
  | case2 c rest hc run hg =>
    rename_i hne
    cases h
    have hm := colon_mem_colonGroups (by simpa using hne)
    simp only [List.mem_append]
    exact Or.inr hm
  | case3 => simp at h
  | case4 rest body after hb ih =>
    obtain ⟨m', hm, rfl⟩ := Option.map_eq_some_iff.1 h
    exact @ih m' hm
  | case5 => simp at h
  | case6 => simp at h

theorem colons_append (ls ms : List Lexeme) : colons (ls ++ ms) = colons ls + colons ms :=
  List.count_append

/-- Mending a chain takes the colons of its name out of the code. -/
theorem colons_mend {ls : List Lexeme} {m : Mend} (h : mendAt? ls = some m) :
    colons m.lexemes + colons m.after < colons ls := by
  have hn : ':' ∈ m.name := by
    unfold mendAt? at h
    split at h
    · exact colon_mem_name h
    · simp at h
  have hc : 0 < colons (m.name.map code) := by
    rw [colons, List.count_pos_iff]
    exact List.mem_map_of_mem hn
  have hb : colons [code '[', literal ('\'' :: m.name ++ ['\'']), code ']'] = 0 := by
    simp [colons]
  have hd : colons (code '.' :: m.name.map code) = colons (m.name.map code) := by
    simp [colons]
  conv => rhs; rw [eq_append_of_mendAt? h]
  simp only [Mend.lexemes, colons_append, hb, hd]
  omega

/-- A pass either finds nothing to mend, and then changes nothing, or lowers the number of colons
in code. -/
theorem mendPass_eq_or_colons_lt (ls : List Lexeme) :
    mendPass ls = ls ∨ colons (mendPass ls) < colons ls := by
  fun_induction mendPass ls with
  | case1 => exact Or.inl rfl
  | case2 l rest m h ih =>
    have hm := colons_mend h
    right
    rw [colons_append]
    rcases ih with ih | ih
    · rw [ih]; exact hm
    · omega
  | case3 l rest h ih =>
    rcases ih with ih | ih
    · exact Or.inl (by rw [ih])
    · right
      have hs (ms : List Lexeme) : colons (l :: ms) = colons [l] + colons ms :=
        colons_append [l] ms
      rw [hs, hs rest]
      omega

/-- Mend as long as a pass takes colons out of the code. -/
def settle (ls : List Lexeme) : List Lexeme :=
  if colons (mendPass ls) < colons ls then settle (mendPass ls) else ls
termination_by colons ls

/-- The passes stop at a text that a further pass does not change. -/
theorem mendPass_settle (ls : List Lexeme) : mendPass (settle ls) = settle ls := by
  fun_induction settle ls with
  | case1 ls h ih => exact ih
  | case2 ls h => exact (mendPass_eq_or_colons_lt ls).resolve_right h

/-- A text with all its accessor chains mended. -/
def normalizeChars (cs : List Char) : List Char := textOf (settle (Lexeme.ofChars cs))

/-- A text with all its accessor chains mended. -/
def normalize (s : String) : String := String.ofList (normalizeChars s.toList)

end Catalog.Script
