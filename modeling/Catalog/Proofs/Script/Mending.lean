import Catalog.Proofs.Script.Chains
import Catalog.Proofs.Script.Cuts
import Mathlib.Logic.Function.Iterate

/-!
# What normalizing does to a text

Each pass cuts the text anew, also the literals that the pass before it has written. A pass keeps
every lexeme but some points with a name behind them, and what it writes in their place is never cut
or mended again. So the passes over the text are the passes over its first cut, and all of them
together do no more than one of them: they put some names with colon groups between brackets.
-/

namespace Catalog.Script

open Lexeme

/-- The second list is the first one with some names, each behind a point, put in quotes between
brackets. -/
inductive Mended : List Lexeme → List Lexeme → Prop
  | nil : Mended [] []
  | keep {ls ms : List Lexeme} (l : Lexeme) (h : Mended ls ms) : Mended (l :: ls) (l :: ms)
  | mend {name : List Char} {ls ms : List Lexeme} (hname : IsColonName name) (h : Mended ls ms) :
      Mended (code '.' :: (name.map code ++ ls))
        (code '[' :: literal ('\'' :: name ++ ['\'']) :: code ']' :: ms)

namespace Mended

variable {ls ms ns : List Lexeme}

theorem append_left (before : List Lexeme) (h : Mended ls ms) :
    Mended (before ++ ls) (before ++ ms) := by
  induction before with
  | nil => exact h
  | cons l before ih => exact .keep l ih

theorem refl (ls : List Lexeme) : Mended ls ls := by
  simpa using append_left ls .nil

/-- Mending writes an opening bracket first, so another code character has been kept. -/
theorem of_cons {c : Char} (hc : c ≠ '[') (h : Mended ls (code c :: ms)) :
    ∃ ls', ls = code c :: ls' ∧ Mended ls' ms := by
  cases h with
  | keep l h => exact ⟨_, rfl, h⟩
  | mend => exact absurd rfl hc

theorem of_map_append {cs : List Char} (hcs : '[' ∉ cs) (h : Mended ls (cs.map code ++ ms)) :
    ∃ ls', ls = cs.map code ++ ls' ∧ Mended ls' ms := by
  induction cs generalizing ls with
  | nil => exact ⟨ls, rfl, h⟩
  | cons c cs ih =>
    obtain ⟨rest, rfl, hrest⟩ := h.of_cons (List.ne_of_not_mem_cons hcs).symm
    obtain ⟨ls, rfl, hls⟩ := ih (List.not_mem_of_not_mem_cons hcs) hrest
    exact ⟨ls, rfl, hls⟩

end Mended

theorem IsColonName.notMem {name : List Char} (h : IsColonName name) {c : Char}
    (hrest : isNameRest c = false) (hc : c ≠ ':') : c ∉ name := by
  intro hm
  rcases h.isNameRest_or hm with hn | rfl
  · rw [hrest] at hn
    exact Bool.false_ne_true hn
  · exact hc rfl

/-- A name that is mended later was there from the start. -/
theorem Mended.trans {ls ms ns : List Lexeme} (h : Mended ls ms) (h' : Mended ms ns) :
    Mended ls ns := by
  induction h generalizing ns with
  | nil => exact h'
  | @keep ls ms l h ih =>
    cases h' with
    | keep l h' => exact .keep l (ih h')
    | @mend name ms ns hname h' =>
      obtain ⟨ls, rfl, -⟩ := h.of_map_append (hname.notMem (by decide) (by decide))
      have hkept := ih (h'.append_left (name.map code))
      obtain ⟨ls', he, hrest⟩ := hkept.of_map_append (hname.notMem (by decide) (by decide))
      obtain rfl := List.append_cancel_left he
      exact .mend hname hrest
  | mend hname h ih =>
    -- What an earlier pass has written is kept.
    cases h' with
    | keep _ h' =>
      cases h' with
      | keep _ h' =>
        cases h' with
        | keep _ h' => exact .mend hname (ih h')

/-- One pass mends some names. -/
theorem mended_mendPass (ls : List Lexeme) : Mended ls (mendPass ls) := by
  fun_induction mendPass ls with
  | case1 => exact .nil
  | case2 l rest m h ih =>
    have hls : l :: rest =
        (chainRoot ++ m.steps) ++ code '.' :: (m.name.map code ++ m.after) := by
      rw [eq_append_of_mendAt? h]
      simp only [List.append_assoc, List.cons_append]
    have hms : m.lexemes ++ mendPass m.after = (chainRoot ++ m.steps) ++
        code '[' :: literal ('\'' :: m.name ++ ['\'']) :: code ']' :: mendPass m.after := by
      simp only [Mend.lexemes, List.append_assoc, List.cons_append, List.nil_append]
    rw [hls, hms]
    exact .append_left _ (.mend (fits_of_mendAt? h).2 ih)
  | case3 l rest h ih => exact .keep l ih

/-- All passes together mend some names, each of them once. -/
theorem mended_settle (ls : List Lexeme) : Mended ls (settle ls) := by
  fun_induction settle ls with
  | case1 ls h ih => exact (mended_mendPass ls).trans ih
  | case2 ls h => exact .refl ls

/-- The name that is put in quotes is closed by the quote behind it. -/
theorem IsColonName.literalBody {name : List Char} (h : IsColonName name) :
    LiteralBody true (name ++ ['\'']) := by
  have hquote : '\'' ∉ name := h.notMem (by decide) (by decide)
  have hback : '\\' ∉ name := h.notMem (by decide) (by decide)
  clear h
  induction name with
  | nil => exact .closing
  | cons c name ih =>
    exact .plain (List.ne_of_not_mem_cons hquote).symm (List.ne_of_not_mem_cons hback).symm
      (ih (List.not_mem_of_not_mem_cons hquote) (List.not_mem_of_not_mem_cons hback))

theorem Cut.of_map_append {cs : List Char} {ls : List Lexeme} (h : Cut (cs.map Lexeme.code ++ ls)) :
    Cut ls := by
  induction cs with
  | nil => exact h
  | cons c cs ih =>
    cases h with
    | code hc h => exact ih h

/-- Mending leaves lexemes that are found again in their text. -/
theorem Mended.cut {ls ms : List Lexeme} (h : Mended ls ms) (hcut : Cut ls) : Cut ms := by
  induction h with
  | nil => exact .nil
  | @keep ls ms l h ih =>
    cases hcut with
    | code hc hcut => exact .code hc (ih hcut)
    | literal hbody hlast hcut =>
      refine .literal hbody (fun hclosed => ?_) (ih hcut)
      cases hlast hclosed
      cases h
      rfl
  | mend hname h ih =>
    cases hcut with
    | code hc hcut =>
      exact .code (by decide) (.literal hname.literalBody (by simp)
        (.code (by decide) (ih hcut.of_map_append)))

/-- The literals among lexemes, from left to right. -/
def literals (ls : List Lexeme) : List (List Char) :=
  ls.filterMap fun
    | code _ => none
    | literal cs => some cs

theorem literals_map_code_append (cs : List Char) (ls : List Lexeme) :
    literals (cs.map code ++ ls) = literals ls := by
  induction cs with
  | nil => rfl
  | cons c cs ih => exact ih

/-- Mending keeps the literals and adds others. -/
theorem Mended.literals_sublist {ls ms : List Lexeme} (h : Mended ls ms) :
    (literals ls).Sublist (literals ms) := by
  induction h with
  | nil => exact .slnil
  | @keep ls ms l h ih =>
    cases l with
    | code c => exact ih
    | literal cs => exact ih.cons_cons cs
  | @mend name ls ms hname h ih =>
    have hcode : literals (code '.' :: (name.map code ++ ls)) = literals ls :=
      literals_map_code_append ('.' :: name) ls
    rw [hcode]
    exact ih.cons _

/-! ## Texts -/

/-- The lexemes of a text. -/
def lexemes (s : String) : List Lexeme := ofChars s.toList

/-- One pass over a text: it is cut, mended, and put together again. -/
def pass (s : String) : String := String.ofList (textOf (mendPass (lexemes s)))

theorem lexemes_injective {s t : String} (h : lexemes s = lexemes t) : s = t := by
  have htext := congrArg textOf h
  rwa [lexemes, lexemes, textOf_ofChars, textOf_ofChars, String.toList_inj] at htext

/-- A pass over a text is a pass over its cut. -/
theorem lexemes_pass (s : String) : lexemes (pass s) = mendPass (lexemes s) := by
  rw [lexemes, pass, String.toList_ofList]
  exact ((mended_mendPass _).cut (cut_ofChars _)).ofChars_textOf

theorem lexemes_iterate_pass (n : Nat) (s : String) :
    lexemes (pass^[n] s) = mendPass^[n] (lexemes s) := by
  induction n generalizing s with
  | zero => rfl
  | succ n ih => rw [Function.iterate_succ_apply, Function.iterate_succ_apply, ih, lexemes_pass]

theorem lexemes_normalize (s : String) : lexemes (normalize s) = settle (lexemes s) := by
  rw [lexemes, normalize, String.toList_ofList]
  exact ((mended_settle _).cut (cut_ofChars _)).ofChars_textOf

/-- The passes stop where the pattern of a chain fits nowhere in code. -/
theorem not_mendable_settle (ls : List Lexeme) : ¬ Mendable (settle ls) := by
  rw [← colons_mendPass_lt_iff, mendPass_settle]
  exact Nat.lt_irrefl _

/-- Settling is as many passes as find something to mend. -/
theorem exists_iterate_settle (ls : List Lexeme) :
    ∃ n, settle ls = mendPass^[n] ls ∧ ∀ k < n, Mendable (mendPass^[k] ls) := by
  fun_induction settle ls with
  | case1 ls h ih =>
    obtain ⟨n, hn, hbefore⟩ := ih
    refine ⟨n + 1, hn, fun k hk => ?_⟩
    cases k with
    | zero => exact (colons_mendPass_lt_iff ls).1 h
    | succ k => exact hbefore k (Nat.lt_of_succ_lt_succ hk)
  | case2 ls h => exact ⟨0, rfl, by simp⟩

/-- A text in which the pattern fits nowhere in code is normal already. -/
theorem normalize_eq_self {s : String} (h : ¬ Mendable (lexemes s)) : normalize s = s := by
  apply lexemes_injective
  rw [lexemes_normalize, settle, if_neg (by rwa [colons_mendPass_lt_iff])]

/-- Normalizing a text is a number of passes over it. Each of them finds the pattern of a chain in
code and lowers the number of colons there, and behind the last one the pattern fits nowhere, so
normalizing again changes nothing. The literals of the text stay as they are and in their order, and
all that changes is that some names with colon groups, each behind a point in code, stand in quotes
between brackets. -/
theorem normalize_mends (s : String) :
    (∃ n, normalize s = pass^[n] s ∧
      ∀ k < n, Mendable (lexemes (pass^[k] s)) ∧
        colons (lexemes (pass^[k + 1] s)) < colons (lexemes (pass^[k] s))) ∧
    ¬ Mendable (lexemes (normalize s)) ∧
    normalize (normalize s) = normalize s ∧
    (literals (lexemes s)).Sublist (literals (lexemes (normalize s))) ∧
    Mended (lexemes s) (lexemes (normalize s)) := by
  have hmended : Mended (lexemes s) (lexemes (normalize s)) := by
    rw [lexemes_normalize]
    exact mended_settle _
  have hstop : ¬ Mendable (lexemes (normalize s)) := by
    rw [lexemes_normalize]
    exact not_mendable_settle _
  obtain ⟨n, hn, hbefore⟩ := exists_iterate_settle (lexemes s)
  refine ⟨⟨n, ?_, fun k hk => ?_⟩, hstop, normalize_eq_self hstop, hmended.literals_sublist, hmended⟩
  · apply lexemes_injective
    rw [lexemes_normalize, lexemes_iterate_pass, hn]
  · have hfits : Mendable (lexemes (pass^[k] s)) := by
      rw [lexemes_iterate_pass]
      exact hbefore k hk
    refine ⟨hfits, ?_⟩
    rw [Function.iterate_succ_apply', lexemes_pass]
    exact (colons_mendPass_lt_iff _).2 hfits

/-- Two names of one chain take two passes. A key that looks like a number of a literal and a literal
without an end stay as they are. -/
theorem normalize_mends_two_names :
    normalize "ctx._source['#0'].sat:orbit.view:azimuth = 'a.b:c" =
        "ctx._source['#0']['sat:orbit']['view:azimuth'] = 'a.b:c" ∧
      colons (lexemes (pass "ctx._source['#0'].sat:orbit.view:azimuth = 'a.b:c")) <
        colons (lexemes "ctx._source['#0'].sat:orbit.view:azimuth = 'a.b:c") := by
  have hnormal : normalize "ctx._source['#0'].sat:orbit.view:azimuth = 'a.b:c" =
      "ctx._source['#0']['sat:orbit']['view:azimuth'] = 'a.b:c" := by
    decide +kernel
  obtain ⟨⟨n, hn, hpasses⟩, -⟩ :=
    normalize_mends "ctx._source['#0'].sat:orbit.view:azimuth = 'a.b:c"
  refine ⟨hnormal, (hpasses 0 ?_).2⟩
  cases n with
  | zero =>
    rw [hnormal] at hn
    exact absurd hn (by decide)
  | succ n => exact Nat.succ_pos n

end Catalog.Script
