import Catalog.Proofs.Filter.Tokens
import Mathlib.Algebra.Group.Nat.Even

/-!
# Patterns that stand for a text

Escaping writes every character of a text as a token that stands for this character alone. The
translation of the escaped text is therefore the text itself, and the escaped texts are exactly the
patterns without wildcards that are translated. What is written behind an escaped text is matched
against what stands behind the text, so a wildcard put there remains one, whatever the text ends in.
-/

namespace Catalog

namespace Like

namespace Token

/-- The token that stands for a character alone. -/
def literal (c : Char) : Token :=
  if h : isSpecial c = true then escaped c h else char c (Bool.eq_false_iff.2 h)

@[simp] theorem image_literal (c : Char) : (literal c).image = c := by
  unfold literal
  split
  · rfl
  · rfl

/-- The token stands for other characters than its own. -/
def IsWildcard (t : Token) : Prop := t = run ∨ t = one

theorem not_isWildcard_literal (c : Char) : ¬(literal c).IsWildcard := by
  unfold literal
  split
  · simp [IsWildcard]
  · simp [IsWildcard]

/-- A token that is no wildcard is the one for the character that it is translated to. -/
theorem literal_image {t : Token} (h : ¬t.IsWildcard) : literal t.image = t := by
  cases t with
  | escaped c special => exact dif_pos special
  | run => exact absurd (.inl rfl) h
  | one => exact absurd (.inr rfl) h
  | char c ordinary => exact dif_neg (Bool.eq_false_iff.1 ordinary)

end Token

theorem escapeChars_cons (c : Char) (cs : List Char) :
    escapeChars (c :: cs) = (Token.literal c).text ++ escapeChars cs := by
  rw [escapeChars, List.flatMap_cons, ← escapeChars, Token.literal]
  split
  · rfl
  · rfl

/-- Escaping spells a text by literal tokens. -/
theorem escapeChars_eq_spell (cs : List Char) : escapeChars cs = spell (cs.map Token.literal) := by
  induction cs with
  | nil => rfl
  | cons c cs ih => rw [escapeChars_cons, ih, List.map_cons, spell_cons]

theorem toList_escape (t : String) : (escape t).toList = escapeChars t.toList :=
  String.toList_ofList

/-- How many backslashes a text ends in, one behind the other. -/
def endBackslashes (cs : List Char) : Nat := (cs.reverse.takeWhile (· == '\\')).length

/-- A percent sign or an underscore stands in the pattern behind an even number of backslashes, so
none of them escapes it. -/
def HasWildcard (p : List Char) : Prop :=
  ∃ before c after, p = before ++ c :: after ∧ (c = '%' ∨ c = '_') ∧ Even (endBackslashes before)

/-- A text that ends in an even number of backslashes does not count in front of another one. -/
theorem even_endBackslashes_append {xs : List Char} (h : Even (endBackslashes xs))
    (ys : List Char) : Even (endBackslashes (xs ++ ys)) ↔ Even (endBackslashes ys) := by
  rw [endBackslashes, endBackslashes, List.reverse_append, List.takeWhile_append]
  split
  · next hall =>
    rw [List.length_append, Nat.even_add, ← hall]
    exact iff_true_right h
  · rfl

theorem even_endBackslashes_text (t : Token) : Even (endBackslashes t.text) := by
  cases t with
  | escaped c special =>
    by_cases hc : c = '\\'
    · subst hc
      change Even 2
      decide
    · simp [endBackslashes, Token.text, hc]
  | run => decide
  | one => decide
  | char c ordinary =>
    have hc : c ≠ '\\' := ne_of_not_special ordinary rfl
    simp [endBackslashes, Token.text, hc]

theorem even_endBackslashes_spell (ts : List Token) : Even (endBackslashes (spell ts)) := by
  induction ts with
  | nil => decide
  | cons t ts ih =>
    rw [spell_cons, even_endBackslashes_append (even_endBackslashes_text t)]
    exact ih

/-- No token but a wildcard holds one. -/
theorem Token.isWildcard_of_text_eq {t : Token} {before after : List Char} {c : Char}
    (h : t.text = before ++ c :: after) (hc : c = '%' ∨ c = '_')
    (heven : Even (endBackslashes before)) : t.IsWildcard := by
  have hspecial : isSpecial c = true := by
    rcases hc with rfl | rfl
    · rfl
    · rfl
  cases t with
  | escaped d special =>
    exfalso
    rcases List.cons_eq_append_iff.1 h with ⟨-, hcons⟩ | ⟨rest, rfl, hrest⟩
    · obtain ⟨rfl, -⟩ := List.cons.inj hcons
      simp at hc
    · cases rest with
      | nil => exact absurd heven (by decide)
      | cons e rest => simp at hrest
  | run => exact .inl rfl
  | one => exact .inr rfl
  | char d ordinary =>
    exfalso
    rcases List.cons_eq_append_iff.1 h with ⟨-, hcons⟩ | ⟨rest, -, hrest⟩
    · obtain ⟨rfl, -⟩ := List.cons.inj hcons
      exact ne_of_not_special ordinary hspecial rfl
    · simp at hrest

/-- In a sequence of tokens the wildcards are tokens of their own. -/
theorem hasWildcard_spell_iff {ts : List Token} :
    HasWildcard (spell ts) ↔ ∃ t ∈ ts, t.IsWildcard := by
  constructor
  · rintro ⟨before, c, after, hsplit, hc, heven⟩
    -- A token in front of the wildcard is taken off with no change to what escapes it.
    induction ts generalizing before with
    | nil => simp at hsplit
    | cons t ts ih =>
      rw [spell_cons] at hsplit
      have hbehind (rest : List Char) (hrest : spell ts = rest ++ c :: after)
          (hbefore : before = t.text ++ rest) : ∃ u ∈ t :: ts, u.IsWildcard := by
        rw [hbefore, even_endBackslashes_append (even_endBackslashes_text t)] at heven
        obtain ⟨u, hu, hwildcard⟩ := ih rest hrest heven
        exact ⟨u, List.mem_cons_of_mem _ hu, hwildcard⟩
      rcases List.append_eq_append_iff.1 hsplit with ⟨rest, hbefore, hrest⟩ | ⟨rest, htext, hrest⟩
      · exact hbehind rest hrest hbefore
      · cases rest with
        | nil => exact hbehind [] hrest.symm (by simpa using htext.symm)
        | cons d rest =>
          obtain ⟨rfl, -⟩ := List.cons.inj hrest
          exact ⟨t, List.mem_cons_self, Token.isWildcard_of_text_eq htext hc heven⟩
  · rintro ⟨t, ht, hwildcard⟩
    obtain ⟨us, vs, rfl⟩ := List.append_of_mem ht
    rw [spell_append, spell_cons]
    rcases hwildcard with rfl | rfl
    · exact ⟨spell us, '%', spell vs, rfl, .inl rfl, even_endBackslashes_spell us⟩
    · exact ⟨spell us, '_', spell vs, rfl, .inr rfl, even_endBackslashes_spell us⟩

theorem translate_escape (t : String) : translate (escape t) = .ok t :=
  translate_eq_ok_iff.2 ⟨t.toList.map Token.literal, by rw [toList_escape, escapeChars_eq_spell],
    by simp [Function.comp_def]⟩

/-- The escaped text is the only pattern for the text that has no wildcards. -/
theorem eq_escape_iff {p t : String} :
    p = escape t ↔ translate p = .ok t ∧ ¬HasWildcard p.toList := by
  constructor
  · rintro rfl
    refine ⟨translate_escape t, ?_⟩
    rw [toList_escape, escapeChars_eq_spell, hasWildcard_spell_iff]
    rintro ⟨u, hu, hwildcard⟩
    obtain ⟨c, -, rfl⟩ := List.mem_map.1 hu
    exact Token.not_isWildcard_literal c hwildcard
  · rintro ⟨htranslate, hplain⟩
    obtain ⟨ts, hp, rfl⟩ := translate_eq_ok_iff.1 htranslate
    rw [hp, hasWildcard_spell_iff, not_exists] at hplain
    have hliteral : (ts.map Token.image).map Token.literal = ts := by
      rw [List.map_map]
      refine (List.map_congr_left fun u hu => ?_).trans (List.map_id ts)
      exact Token.literal_image fun hwildcard => hplain u ⟨hu, hwildcard⟩
    rw [← String.toList_inj, hp, toList_escape, String.toList_ofList, escapeChars_eq_spell,
      hliteral]

theorem matches_literal_append_iff {c : Char} {q s : List Char} :
    Matches ((Token.literal c).text ++ q) s ↔ ∃ rest, s = c :: rest ∧ Matches q rest := by
  unfold Token.literal
  split
  · next special => exact matches_escaped_iff special
  · next ordinary => exact matches_char_iff (Bool.eq_false_iff.2 ordinary)

/-- An escaped text takes the text itself, and leaves what stands behind it to the pattern behind. -/
theorem matches_escapeChars_append_iff {cs q s : List Char} :
    Matches (escapeChars cs ++ q) s ↔ ∃ rest, s = cs ++ rest ∧ Matches q rest := by
  induction cs generalizing s with
  | nil => simp [escapeChars]
  | cons c cs ih =>
    rw [escapeChars_cons, List.append_assoc, matches_literal_append_iff]
    simp only [ih]
    constructor
    · rintro ⟨_, rfl, rest, rfl, hrest⟩
      exact ⟨rest, rfl, hrest⟩
    · rintro ⟨rest, rfl, hrest⟩
      exact ⟨cs ++ rest, rfl, rest, rfl, hrest⟩

/-- A percent sign alone matches every text. -/
theorem matches_run (s : List Char) : Matches ['%'] s :=
  matches_run_iff.2 ⟨s, [], by simp, .nil⟩

theorem matches_escape_iff {t : String} {s : List Char} :
    Matches (escape t).toList s ↔ s = t.toList := by
  rw [toList_escape, ← List.append_nil (escapeChars t.toList), matches_escapeChars_append_iff]
  simp [matches_nil_iff]

end Like

namespace Query.TextOperator

/-- The pattern that an operator asks for matches the texts that the operator holds of. -/
theorem matches_likePattern_iff (op : TextOperator) {t : String} {s : List Char} :
    Like.Matches (op.likePattern t).toList s ↔ op.Holds t.toList s := by
  have hpercent : "%".toList = ['%'] := rfl
  cases op with
  | startsWith =>
    rw [likePattern, String.toList_append, hpercent, Like.toList_escape,
      Like.matches_escapeChars_append_iff]
    constructor
    · rintro ⟨after, rfl, -⟩
      exact ⟨after, rfl⟩
    · rintro ⟨after, rfl⟩
      exact ⟨after, rfl, Like.matches_run after⟩
  | endsWith =>
    rw [likePattern, String.toList_append, hpercent, List.singleton_append, Like.matches_run_iff]
    simp only [Like.matches_escape_iff]
    constructor
    · rintro ⟨before, _, rfl, rfl⟩
      exact ⟨before, rfl⟩
    · rintro ⟨before, rfl⟩
      exact ⟨before, _, rfl, rfl⟩
  | contains =>
    rw [likePattern, String.toList_append, String.toList_append, hpercent, List.append_assoc,
      List.singleton_append, Like.matches_run_iff, Like.toList_escape]
    simp only [Like.matches_escapeChars_append_iff]
    constructor
    · rintro ⟨before, _, rfl, after, rfl, -⟩
      exact ⟨before, after, by simp⟩
    · rintro ⟨before, after, rfl⟩
      exact ⟨before, _, List.append_assoc .., after, rfl, Like.matches_run after⟩

end Query.TextOperator

namespace Like

/-- An escaped text is translated to the text, and it is the only pattern without wildcards that is.
It matches the text alone. With a percent sign behind it, in front of it or on both sides, it
matches what starts with the text, what ends with it or what contains it; these are the patterns
that the text operators of a query ask for. -/
theorem escape_exact (t : String) :
    translate (escape t) = .ok t ∧
    (∀ p, translate p = .ok t ∧ ¬HasWildcard p.toList ↔ p = escape t) ∧
    (∀ s, Matches (escape t).toList s ↔ s = t.toList) ∧
    (∀ s, Matches (escape t ++ "%").toList s ↔ t.toList <+: s) ∧
    (∀ s, Matches ("%" ++ escape t).toList s ↔ t.toList <:+ s) ∧
    (∀ s, Matches ("%" ++ escape t ++ "%").toList s ↔ t.toList <:+: s) ∧
    ∀ property (op : Query.TextOperator), ∃ p,
      Query.lowerEntry property op.name (.text t) = .ok (.like property p) ∧
        ∀ s, Matches p.toList s ↔ op.Holds t.toList s := by
  refine ⟨translate_escape t, fun p => eq_escape_iff.symm, fun s => matches_escape_iff,
    fun s => ?_, fun s => ?_, fun s => ?_, fun property op => ?_⟩
  · exact Query.TextOperator.startsWith.matches_likePattern_iff
  · exact Query.TextOperator.endsWith.matches_likePattern_iff
  · exact Query.TextOperator.contains.matches_likePattern_iff
  · exact ⟨op.likePattern t, op.lowerEntry_text property t,
      fun s => op.matches_likePattern_iff⟩

/-- A pattern with a wildcard is no escaped text, although it is translated. -/
example : translate "a_" = .ok "a?" ∧ escape "a?" ≠ "a_" := by
  constructor
  · rfl
  · decide

end Like

end Catalog
