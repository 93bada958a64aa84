import Catalog.Proofs.Script.Token
import Catalog.Script.Accessor

/-!
# The tokens of expressions and statements

The text of every expression, removal and statement is the text of its tokens. All of them are
regular when each name that stands in code is a word and each quoted text a single line.
-/

namespace Catalog.Script

open Lexeme Token

/-- A name that consists of letters, digits and underscores. -/
def IsWord (name : String) : Prop := ∀ c ∈ name.toList, isNameRest c = true

instance (name : String) : Decidable (IsWord name) :=
  decidable_of_iff (name.toList.all isNameRest = true) List.all_eq_true

theorem isWord_repr (n : Nat) : IsWord (Nat.repr n) := by
  intro c hc
  rw [Nat.toList_repr] at hc
  have hd := Nat.isDigit_of_mem_toDigits (by decide) (by decide) hc
  simp [isNameRest, Char.isAlphanum, hd]

theorem isWord_of_isIdentifier {name : String} (h : isIdentifier name = true) : IsWord name := by
  unfold isIdentifier at h
  unfold IsWord
  split at h
  · simp at h
  · next c rest hc =>
    simp only [Bool.and_eq_true, Bool.or_eq_true, beq_iff_eq, List.all_eq_true] at h
    rw [hc]
    intro d hd
    simp only [Lexeme.isNameRest, Bool.or_eq_true, beq_iff_eq]
    rcases List.mem_cons.1 hd with rfl | hd
    · exact h.1.imp (fun ha => by simp [Char.isAlphanum, ha]) id
    · exact h.2 d hd

namespace Expr

/-- The tokens of an expression. -/
def tokens : Expr → List Token
  | source => [.code "ctx._source"]
  | param name => [.code "params.", .code name]
  | binding name => [.code name]
  | quoted s => [.quoted s]
  | count n => [.code (Nat.repr n)]
  | newMap => [.code "new HashMap()"]
  | field c name => c.tokens ++ [.code ".", .code name]
  | item c k => c.tokens ++ .code "[" :: k.tokens ++ [.code "]"]
  | size c => c.tokens ++ [.code ".size()"]
  | minus a b => a.tokens ++ .code " - " :: b.tokens
  | plus a b => a.tokens ++ .code " + " :: b.tokens
  | containsKey c k => c.tokens ++ .code ".containsKey(" :: k.tokens ++ [.code ")"]
  | isList c => c.tokens ++ [.code " instanceof List"]
  | greater a b => a.tokens ++ .code " > " :: b.tokens
  | atLeast a b => a.tokens ++ .code " >= " :: b.tokens
  | differs a b => a.tokens ++ .code " != " :: b.tokens
  | not (isList c) => .code "!(" :: c.tokens ++ [.code " instanceof List)"]
  | not a => .code "!" :: a.tokens
  | and a b => .code "(" :: a.tokens ++ .code " && " :: b.tokens ++ [.code ")"]
  | or a b => .code "(" :: a.tokens ++ .code " || " :: b.tokens ++ [.code ")"]
  | choose c a b =>
    .code "(" :: c.tokens ++ .code " ? " :: a.tokens ++ .code " : " :: b.tokens ++ [.code ")"]

/-- The text of an expression is the text of its tokens. -/
theorem charsOf_tokens (e : Expr) : charsOf e.tokens = e.text.toList := by
  fun_induction Expr.tokens e <;>
    simp_all [Expr.text, Token.chars, String.toList_append]

/-- Every name in code is a word, and every quoted text a single line. -/
def WellWritten : Expr → Prop
  | source => True
  | param name => IsWord name
  | binding name => IsWord name
  | quoted s => Text.SingleLine s
  | count _ => True
  | newMap => True
  | field c name => c.WellWritten ∧ IsWord name
  | item c k => c.WellWritten ∧ k.WellWritten
  | size c => c.WellWritten
  | minus a b => a.WellWritten ∧ b.WellWritten
  | plus a b => a.WellWritten ∧ b.WellWritten
  | containsKey c k => c.WellWritten ∧ k.WellWritten
  | isList c => c.WellWritten
  | greater a b => a.WellWritten ∧ b.WellWritten
  | atLeast a b => a.WellWritten ∧ b.WellWritten
  | differs a b => a.WellWritten ∧ b.WellWritten
  | not a => a.WellWritten
  | and a b => a.WellWritten ∧ b.WellWritten
  | or a b => a.WellWritten ∧ b.WellWritten
  | choose c a b => c.WellWritten ∧ a.WellWritten ∧ b.WellWritten

/-- The tokens of a well written expression are regular. -/
theorem WellWritten.regular {e : Expr} (h : e.WellWritten) : AllRegular e.tokens := by
  fun_induction Expr.tokens e with
  | case2 name =>
    rw [allRegular_cons, allRegular_cons]
    exact ⟨by decide, regular_code_of_word h, allRegular_nil⟩
  | case3 name => exact List.forall_mem_singleton.2 (regular_code_of_word h)
  | case5 n => exact List.forall_mem_singleton.2 (regular_code_repr n)
  | case7 c name ih =>
    rw [allRegular_append, allRegular_cons, allRegular_cons]
    exact ⟨ih h.1, by decide, regular_code_of_word h.2, allRegular_nil⟩
  | _ =>
    simp only [WellWritten] at h
    simp_all +decide only [allRegular_append, allRegular_cons, allRegular_nil, regular_quoted,
      and_true]

end Expr

namespace Removal

/-- The tokens of a removal. -/
def tokens : Removal → List Token
  | remove c k => c.tokens ++ .code ".remove(" :: k.tokens ++ [.code ")"]
  | choose c a b =>
    .code "(" :: c.tokens ++ .code " ? " :: a.tokens ++ .code " : " :: b.tokens ++ [.code ")"]

theorem charsOf_tokens (r : Removal) : charsOf r.tokens = r.text.toList := by
  induction r with
  | remove c k => simp [tokens, text, Token.chars, Expr.charsOf_tokens, String.toList_append]
  | choose c a b iha ihb =>
    simp [tokens, text, Token.chars, Expr.charsOf_tokens, iha, ihb, String.toList_append]

/-- Every name in code is a word, and every quoted text a single line. -/
def WellWritten : Removal → Prop
  | remove c k => c.WellWritten ∧ k.WellWritten
  | choose c a b => c.WellWritten ∧ a.WellWritten ∧ b.WellWritten

theorem WellWritten.regular {r : Removal} (h : r.WellWritten) : AllRegular r.tokens := by
  induction r with
  | remove c k =>
    have hc := h.1.regular
    have hk := h.2.regular
    simp +decide only [tokens, allRegular_append, allRegular_cons, allRegular_nil, hc, hk]
  | choose c a b iha ihb =>
    have hc := h.1.regular
    simp +decide only [tokens, allRegular_append, allRegular_cons, allRegular_nil, hc, iha h.2.1,
      ihb h.2.2]

end Removal

namespace Statement

/-- The tokens of a statement. -/
def tokens : Statement → List Token
  | when c body => .code "if (" :: c.tokens ++ .code ") \x7b " :: body.tokens ++ [.code " \x7d"]
  | branch c a b =>
    .code "if (" :: c.tokens ++ .code ") \x7b " :: a.tokens ++ .code " \x7d else \x7b " ::
      b.tokens ++ [.code " \x7d"]
  | explain reason => .code "Debug.explain(" :: reason.tokens ++ [.code ");"]
  | assign place value => place.tokens ++ .code " = " :: value.tokens ++ [.code ";"]
  | insert list index value =>
    list.tokens ++ .code ".add(" :: index.tokens ++ .code ", " :: value.tokens ++ [.code ");"]
  | overwrite list index value =>
    list.tokens ++ .code ".set(" :: index.tokens ++ .code ", " :: value.tokens ++ [.code ");"]
  | discard removal => removal.tokens ++ [.code ";"]
  | define name removal =>
    .code "def " :: .code name :: .code " = " :: removal.tokens ++ [.code ";"]

theorem charsOf_tokens (s : Statement) : charsOf s.tokens = s.text.toList := by
  induction s <;>
    simp_all [tokens, text, Token.chars, Expr.charsOf_tokens, Removal.charsOf_tokens,
      String.toList_append]

/-- Every name in code is a word, and every quoted text a single line. -/
def WellWritten : Statement → Prop
  | when c body => c.WellWritten ∧ body.WellWritten
  | branch c a b => c.WellWritten ∧ a.WellWritten ∧ b.WellWritten
  | explain reason => reason.WellWritten
  | assign place value => place.WellWritten ∧ value.WellWritten
  | insert list index value => list.WellWritten ∧ index.WellWritten ∧ value.WellWritten
  | overwrite list index value => list.WellWritten ∧ index.WellWritten ∧ value.WellWritten
  | discard removal => removal.WellWritten
  | define name removal => IsWord name ∧ removal.WellWritten

/-- The tokens of a well written statement are regular. -/
theorem WellWritten.regular {s : Statement} (h : s.WellWritten) : AllRegular s.tokens := by
  induction s with
  | define name removal =>
    have hn : (Token.code name).Regular := regular_code_of_word h.1
    have hr := h.2.regular
    simp +decide only [tokens, allRegular_append, allRegular_cons, allRegular_nil, hn, hr]
  | _ =>
    simp only [WellWritten] at h
    simp_all +decide only [tokens, allRegular_append, allRegular_cons, allRegular_nil, and_true,
      Expr.WellWritten.regular, Removal.WellWritten.regular]

/-- A well written statement is a single line. -/
theorem WellWritten.singleLine {s : Statement} (h : s.WellWritten) : Text.SingleLine s.text := by
  intro c hc
  rw [← s.charsOf_tokens] at hc
  obtain ⟨t, ht, hm⟩ := List.mem_flatMap.1 hc
  exact (h.regular t ht).ne_lineBreak hm

/-- A statement is never written as nothing. -/
theorem text_ne_empty (s : Statement) : s.text ≠ "" := by
  intro h
  have hchars := congrArg String.toList h
  cases s <;> simp [text] at hchars

end Statement

end Catalog.Script
