import Catalog.Script.Normal

/-!
# How a text is cut

An apostrophe in code opens a literal. It is closed by the next apostrophe that no backslash escapes,
and without one it runs to the end of the text. The cut of a text is the only way to write it with
lexemes of this form, so lexemes of this form are found again in their own text.
-/

namespace Catalog.Script

open Lexeme

/-- What stands behind the opening apostrophe of a literal, closed or running to the end of the text.
A backslash escapes the character behind it, if there is one. -/
inductive LiteralBody : Bool → List Char → Prop
  | closing : LiteralBody true ['\'']
  | unclosed : LiteralBody false []
  | lastBackslash : LiteralBody false ['\\']
  | escape {closed : Bool} {rest : List Char} (c : Char) (h : LiteralBody closed rest) :
      LiteralBody closed ('\\' :: c :: rest)
  | plain {closed : Bool} {c : Char} {rest : List Char} (hquote : c ≠ '\'') (hback : c ≠ '\\')
      (h : LiteralBody closed rest) : LiteralBody closed (c :: rest)

/-- Lexemes as a text is cut into them: no apostrophe is code, and only the last literal can run to
the end of the text. -/
inductive Cut : List Lexeme → Prop
  | nil : Cut []
  | code {c : Char} {ls : List Lexeme} (hc : c ≠ '\'') (h : Cut ls) : Cut (.code c :: ls)
  | literal {closed : Bool} {body : List Char} {ls : List Lexeme} (hbody : LiteralBody closed body)
      (hlast : closed = false → ls = []) (h : Cut ls) : Cut (.literal ('\'' :: body) :: ls)

/-- The body that is split off is the body of a literal, and nothing is left behind an unclosed
one. -/
theorem literalBody_split (cs : List Char) :
    ∃ closed, LiteralBody closed (literalBody cs).1 ∧
      (closed = false → (literalBody cs).2 = []) ∧
      (literalBody cs).1 ++ (literalBody cs).2 = cs := by
  fun_induction literalBody cs with
  | case1 => exact ⟨false, .unclosed, fun _ => rfl, rfl⟩
  | case2 rest => exact ⟨true, .closing, by simp, rfl⟩
  | case3 c rest body after hb ih =>
    simp only [hb] at ih
    obtain ⟨closed, hbody, hlast, happend⟩ := ih
    exact ⟨closed, .escape c hbody, hlast, by rw [← happend]; rfl⟩
  | case4 c rest hquote hback body after hb ih =>
    simp only [hb] at ih
    obtain ⟨closed, hbody, hlast, happend⟩ := ih
    by_cases hc : c = '\\'
    · -- Nothing follows the backslash, or it would escape what follows.
      cases rest with
      | nil => cases hb; exact ⟨false, hc ▸ .lastBackslash, fun _ => rfl, rfl⟩
      | cons d rest => exact absurd rfl (hback d rest hc)
    · exact ⟨closed, .plain (fun he => hquote he) hc hbody, hlast, by rw [← happend]; rfl⟩

/-- A body is split off as a whole, whatever follows a closed one. -/
theorem LiteralBody.literalBody_append {closed : Bool} {body : List Char}
    (h : LiteralBody closed body) {rest : List Char} (hlast : closed = false → rest = []) :
    literalBody (body ++ rest) = (body, rest) := by
  induction h with
  | closing => rfl
  | unclosed => rw [hlast rfl]; rfl
  | lastBackslash => rw [hlast rfl]; rfl
  | escape c h ih =>
    rw [List.cons_append, List.cons_append, literalBody, ih hlast]
  | plain hquote hback h ih =>
    rw [List.cons_append, literalBody.eq_4 _ _ hquote fun _ _ he => absurd he hback, ih hlast]

/-- Every text is cut. -/
theorem cut_ofChars (cs : List Char) : Cut (ofChars cs) := by
  fun_induction ofChars cs with
  | case1 => exact .nil
  | case2 rest ih =>
    obtain ⟨closed, hbody, hlast, -⟩ := literalBody_split rest
    exact .literal hbody (fun hc => by rw [hlast hc, ofChars]) ih
  | case3 c rest hc ih => exact .code hc ih

/-- Cutting a text keeps all of it. -/
theorem textOf_ofChars (cs : List Char) : textOf (ofChars cs) = cs := by
  fun_induction ofChars cs with
  | case1 => rfl
  | case2 rest ih =>
    obtain ⟨-, -, -, happend⟩ := literalBody_split rest
    change '\'' :: (literalBody rest).1 ++ textOf (ofChars (literalBody rest).2) = _
    rw [ih, List.cons_append, happend]
  | case3 c rest hc ih => exact congrArg (c :: ·) ih

/-- Lexemes of this form are found again in their text. -/
theorem Cut.ofChars_textOf {ls : List Lexeme} (h : Cut ls) : ofChars (textOf ls) = ls := by
  induction h with
  | nil => rw [textOf, List.flatMap_nil, ofChars]
  | @code c ls hc h ih =>
    change ofChars (c :: textOf ls) = _
    rw [ofChars, if_neg hc, ih]
  | @literal closed body ls hbody hlast h ih =>
    have hsplit : literalBody (body ++ textOf ls) = (body, textOf ls) :=
      hbody.literalBody_append fun hc => by rw [hlast hc]; rfl
    change ofChars ('\'' :: (body ++ textOf ls)) = _
    rw [ofChars, if_pos rfl, hsplit, ih]

/-- The cut of a text is the only one. -/
theorem ofChars_eq_iff {cs : List Char} {ls : List Lexeme} :
    ofChars cs = ls ↔ Cut ls ∧ textOf ls = cs := by
  constructor
  · rintro rfl
    exact ⟨cut_ofChars cs, textOf_ofChars cs⟩
  · rintro ⟨h, rfl⟩
    exact h.ofChars_textOf

end Catalog.Script
