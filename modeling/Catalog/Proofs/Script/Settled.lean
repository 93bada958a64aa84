import Catalog.Proofs.Script.Chains
import Catalog.Proofs.Script.Syntax

/-!
# Texts that are normal already

A chain can only be mended at a name with a colon right behind one of its characters. In the text
of a well written statement every colon of code stands behind a space, so no pass finds anything to
mend there, and normalizing that text leaves it as it is.
-/

namespace Catalog.Script

open Lexeme

/-- Every colon in code stands right behind a space in code. -/
def Spaced (ls : List Lexeme) : Prop :=
  ∀ before after, ls = before ++ code ':' :: after → ∃ start, before = start ++ [code ' ']

theorem Spaced.append {ls ms : List Lexeme} (hl : Spaced ls) (hm : Spaced ms) :
    Spaced (ls ++ ms) := by
  intro before after h
  rcases List.append_eq_append_iff.1 h with ⟨mid, rfl, hmid⟩ | ⟨mid, hls, hmid⟩
  · obtain ⟨start, rfl⟩ := hm mid after hmid
    exact ⟨ls ++ start, by rw [List.append_assoc]⟩
  · cases mid with
    | nil =>
      obtain ⟨start, hs⟩ := hm [] after hmid.symm
      simp at hs
    | cons l mid =>
      rw [List.cons_append, List.cons.injEq] at hmid
      exact hl before mid (hmid.1 ▸ hls)

theorem spaced_of_notMem {ls : List Lexeme} (h : code ':' ∉ ls) : Spaced ls := by
  rintro before after rfl
  simp at h

/-- The lexemes of a regular token are spaced. -/
theorem Token.Regular.spaced {t : Token} (h : t.Regular) : Spaced t.lexemes := by
  cases t with
  | quoted s => exact spaced_of_notMem (by simp [lexemes])
  | code s =>
    by_cases hc : ':' ∈ s.toList
    · obtain rfl := h.2 hc
      intro before after he
      have hl : [Lexeme.code ' ', .code ':', .code ' '] = before ++ .code ':' :: after := he
      rcases before with _ | ⟨a, _ | ⟨b, _ | ⟨d, rest⟩⟩⟩
      · simp at hl
      · obtain ⟨rfl, -⟩ := List.cons.inj hl
        exact ⟨[], rfl⟩
      · simp at hl
      · simp at hl
    · exact spaced_of_notMem (by simpa [lexemes] using hc)

theorem spaced_lexemesOf {ts : List Token} (h : AllRegular ts) : Spaced (lexemesOf ts) := by
  induction ts with
  | nil => exact spaced_of_notMem List.not_mem_nil
  | cons t ts ih =>
    obtain ⟨ht, hts⟩ := (allRegular_cons t ts).1 h
    exact ht.spaced.append (ih hts)

/-- In spaced lexemes no chain can be mended, wherever it starts. -/
theorem Spaced.mendAt?_eq_none {before ls : List Lexeme} (h : Spaced (before ++ ls)) :
    mendAt? ls = none := by
  cases hm : mendAt? ls with
  | none => rfl
  | some m =>
    obtain ⟨start, c, rest, hn, hc⟩ := (fits_of_mendAt? hm).2.exists_behind
    have hsplit : before ++ ls =
        (before ++ chainRoot ++ m.steps ++ code '.' :: start.map code ++ [code c]) ++
          code ':' :: (rest.map Lexeme.code ++ m.after) := by
      conv => lhs; rw [eq_append_of_mendAt? hm, hn]
      simp only [List.map_append, List.map_cons, List.append_assoc, List.cons_append,
        List.nil_append]
    obtain ⟨front, hf⟩ := h _ _ hsplit
    obtain ⟨-, he⟩ := List.append_inj' hf rfl
    obtain rfl : c = ' ' := by simpa using he
    exact absurd hc (by decide)

/-- A pass leaves spaced lexemes as they are. -/
theorem Spaced.mendPass_eq (before : List Lexeme) {ls : List Lexeme}
    (h : Spaced (before ++ ls)) : mendPass ls = ls := by
  induction ls generalizing before with
  | nil => rw [mendPass]
  | cons l rest ih =>
    have hr : Spaced ((before ++ [l]) ++ rest) := by
      rwa [List.append_assoc, List.singleton_append]
    rw [mendPass]
    split
    · next m hm => rw [h.mendAt?_eq_none] at hm; simp at hm
    · rw [ih _ hr]

theorem Spaced.settle_eq {ls : List Lexeme} (h : Spaced ls) : settle ls = ls := by
  have hp : mendPass ls = ls := Spaced.mendPass_eq [] h
  rw [settle, hp, if_neg (Nat.lt_irrefl _)]

/-- Normalizing the text of regular tokens changes nothing. -/
theorem normalizeChars_charsOf {ts : List Token} (h : AllRegular ts) :
    normalizeChars (charsOf ts) = charsOf ts := by
  rw [normalizeChars, ofChars_charsOf h.allApart, (spaced_lexemesOf h).settle_eq, textOf_lexemesOf]

/-- The text of a well written statement is normal already. -/
theorem Statement.WellWritten.normalize_text {s : Statement} (h : s.WellWritten) :
    normalize s.text = s.text := by
  rw [normalize, ← s.charsOf_tokens, normalizeChars_charsOf h.regular, s.charsOf_tokens,
    String.ofList_toList]

end Catalog.Script
