import Catalog.Proofs.Text.Lines
import Catalog.Script.Normal
import Catalog.Script.Statement

/-!
# Tokens of script text

The text of an expression or a statement is a list of tokens, each a piece of code or a whole quoted
literal. When all names are words, no piece of code holds an apostrophe, so cutting the text into
lexemes gives back exactly the tokens: a literal ends where it was closed, whatever its contents.
-/

namespace Catalog.Script

open Lexeme

/-- A piece of code, or a literal that is given by its contents. -/
inductive Token where
  | code (text : String)
  | quoted (text : String)
  deriving DecidableEq, Repr

namespace Token

/-- The text of a token. -/
def chars : Token → List Char
  | code s => s.toList
  | quoted s => (Text.quote s).toList

/-- The lexemes of a token. -/
def lexemes : Token → List Lexeme
  | code s => s.toList.map .code
  | quoted s => [.literal (Text.quote s).toList]

/-- A character that script code is written with. -/
def isCodeChar (c : Char) : Bool :=
  c.isAlphanum || "_ .,;()[]\x7b\x7d!=<>?:&|+-".toList.contains c

/-- Code consists of code characters, and a colon stands alone between two spaces. A quoted text is
a single line. -/
def Regular : Token → Prop
  | code s => (∀ c ∈ s.toList, isCodeChar c = true) ∧ (':' ∈ s.toList → s = " : ")
  | quoted s => Text.SingleLine s

/-- Whether code is regular can be seen from its characters. -/
def isRegularCode (s : String) : Bool :=
  s.toList.all isCodeChar && (!s.toList.contains ':' || s == " : ")

theorem isRegularCode_iff (s : String) : isRegularCode s = true ↔ (code s).Regular := by
  simp [Regular, isRegularCode, Decidable.imp_iff_not_or]

instance (t : Token) : Decidable t.Regular :=
  match t with
  | code s => decidable_of_iff (isRegularCode s = true) (isRegularCode_iff s)
  | quoted s => inferInstanceAs (Decidable (Text.SingleLine s))

@[simp] theorem regular_quoted (s : String) : (quoted s).Regular ↔ Text.SingleLine s := Iff.rfl

/-- A name is regular when it is a word. -/
theorem regular_code_of_word {s : String} (h : ∀ c ∈ s.toList, isNameRest c = true) :
    (code s).Regular := by
  refine ⟨fun c hc => ?_, fun hc => ?_⟩
  · have hw := h c hc
    simp only [isNameRest, Bool.or_eq_true, beq_iff_eq] at hw
    rcases hw with hw | rfl
    · simp [isCodeChar, hw]
    · decide
  · exact absurd (h ':' hc) (by decide)

theorem regular_code_repr (n : Nat) : (code (Nat.repr n)).Regular := by
  refine regular_code_of_word fun c hc => ?_
  rw [Nat.toList_repr] at hc
  have hd := Nat.isDigit_of_mem_toDigits (by decide) (by decide) hc
  simp [isNameRest, Char.isAlphanum, hd]

theorem mem_of_mem_encode {c : Char} {cs : List Char} (h : c ∈ Text.Quoted.encode cs) :
    c = '\\' ∨ c ∈ cs := by
  fun_induction Text.Quoted.encode cs with
  | case1 => simp at h
  | case2 cs ih => grind
  | case3 cs ih => grind
  | case4 d cs hb hq ih => grind

/-- Different texts are quoted differently. -/
theorem quote_injective {s t : String} (h : Text.quote s = Text.quote t) : s = t := by
  have hdecode (u : String) :
      Text.Quoted.decode (Text.quote u).toList.tail = some (u.toList, []) := by
    rw [Text.quote, String.toList_ofList]
    exact Text.Quoted.decode_encode u.toList []
  have hlists := (hdecode s).symm.trans (h ▸ hdecode t)
  rw [Option.some.injEq, Prod.mk.injEq] at hlists
  exact String.toList_inj.1 hlists.1

/-- A regular token holds no line break. -/
theorem Regular.ne_lineBreak {t : Token} (h : t.Regular) {c : Char} (hc : c ∈ t.chars) :
    c ≠ '\n' ∧ c ≠ '\r' := by
  cases t with
  | code s =>
    have hcode := h.1 c hc
    constructor
    · rintro rfl
      exact absurd hcode (by decide)
    · rintro rfl
      exact absurd hcode (by decide)
  | quoted s =>
    rw [chars, Text.quote, String.toList_ofList, List.cons_append, List.mem_cons,
      List.mem_append, List.mem_singleton] at hc
    rcases hc with rfl | hc | rfl
    · decide
    · rcases mem_of_mem_encode hc with rfl | hm
      · decide
      · exact h c hm
    · decide

/-- Code holds no apostrophe, so it opens no literal. -/
def QuotesApart : Token → Prop
  | code s => '\'' ∉ s.toList
  | quoted _ => True

instance (t : Token) : Decidable t.QuotesApart :=
  match t with
  | code s => inferInstanceAs (Decidable ('\'' ∉ s.toList))
  | quoted _ => inferInstanceAs (Decidable True)

@[simp] theorem quotesApart_code (s : String) : (code s).QuotesApart ↔ '\'' ∉ s.toList := Iff.rfl

@[simp] theorem quotesApart_quoted (s : String) : (quoted s).QuotesApart := trivial

theorem Regular.quotesApart {t : Token} (h : t.Regular) : t.QuotesApart := by
  cases t with
  | code s => exact fun hm => absurd (h.1 _ hm) (by decide)
  | quoted s => trivial

end Token

/-- All code among the tokens is regular. -/
def AllRegular (ts : List Token) : Prop := ∀ t ∈ ts, t.Regular

@[simp] theorem allRegular_nil : AllRegular [] := by simp [AllRegular]

@[simp] theorem allRegular_cons (t : Token) (ts : List Token) :
    AllRegular (t :: ts) ↔ t.Regular ∧ AllRegular ts := List.forall_mem_cons

@[simp] theorem allRegular_append (ts us : List Token) :
    AllRegular (ts ++ us) ↔ AllRegular ts ∧ AllRegular us := List.forall_mem_append

/-- Apostrophes stand in quoted tokens only. -/
def AllApart (ts : List Token) : Prop := ∀ t ∈ ts, t.QuotesApart

@[simp] theorem allApart_nil : AllApart [] := by simp [AllApart]

@[simp] theorem allApart_cons (t : Token) (ts : List Token) :
    AllApart (t :: ts) ↔ t.QuotesApart ∧ AllApart ts := List.forall_mem_cons

@[simp] theorem allApart_append (ts us : List Token) :
    AllApart (ts ++ us) ↔ AllApart ts ∧ AllApart us := List.forall_mem_append

theorem AllRegular.allApart {ts : List Token} (h : AllRegular ts) : AllApart ts :=
  fun t ht => (h t ht).quotesApart

/-- The text of a list of tokens. -/
def charsOf (ts : List Token) : List Char := ts.flatMap Token.chars

@[simp] theorem charsOf_nil : charsOf [] = [] := rfl

@[simp] theorem charsOf_cons (t : Token) (ts : List Token) :
    charsOf (t :: ts) = t.chars ++ charsOf ts := rfl

@[simp] theorem charsOf_append (ts us : List Token) :
    charsOf (ts ++ us) = charsOf ts ++ charsOf us := List.flatMap_append

/-- The lexemes of a list of tokens. -/
def lexemesOf (ts : List Token) : List Lexeme := ts.flatMap Token.lexemes

@[simp] theorem lexemesOf_nil : lexemesOf [] = [] := rfl

@[simp] theorem lexemesOf_cons (t : Token) (ts : List Token) :
    lexemesOf (t :: ts) = t.lexemes ++ lexemesOf ts := rfl

@[simp] theorem lexemesOf_append (ts us : List Token) :
    lexemesOf (ts ++ us) = lexemesOf ts ++ lexemesOf us := List.flatMap_append

theorem ofChars_cons_code {c : Char} (h : c ≠ '\'') (rest : List Char) :
    ofChars (c :: rest) = .code c :: ofChars rest := by
  rw [ofChars, if_neg h]

/-- Code without apostrophes is cut into its characters. -/
theorem ofChars_code_append {cs : List Char} (h : '\'' ∉ cs) (rest : List Char) :
    ofChars (cs ++ rest) = cs.map .code ++ ofChars rest := by
  induction cs with
  | nil => rfl
  | cons c cs ih =>
    have hc : c ≠ '\'' := fun he => h (he ▸ List.mem_cons_self ..)
    rw [List.cons_append, ofChars_cons_code hc, ih fun hm => h (List.mem_cons_of_mem _ hm)]
    rfl

/-- The body of a literal is what was quoted, up to the closing apostrophe. -/
theorem literalBody_encode_append (cs rest : List Char) :
    literalBody (Text.Quoted.encode cs ++ '\'' :: rest) =
      (Text.Quoted.encode cs ++ ['\''], rest) := by
  fun_induction Text.Quoted.encode cs with
  | case1 => rfl
  | case2 cs ih => simp [literalBody, ih]
  | case3 cs ih => simp [literalBody, ih]
  | case4 c cs hb hq ih =>
    rw [List.cons_append, literalBody.eq_4 _ _ (by simpa using hq) (by simp_all), ih]
    rfl

/-- A quoted text is cut out as one literal. -/
theorem ofChars_quote_append (s : String) (rest : List Char) :
    ofChars ((Text.quote s).toList ++ rest) = .literal (Text.quote s).toList :: ofChars rest := by
  simp only [Text.quote, String.toList_ofList, List.cons_append, List.append_assoc,
    List.nil_append]
  rw [ofChars, if_pos rfl, literalBody_encode_append]

/-- Where apostrophes stand in quoted tokens only, a text is cut into exactly the lexemes of its
tokens, whatever follows. -/
theorem ofChars_charsOf_append {ts : List Token} (h : AllApart ts) (rest : List Char) :
    ofChars (charsOf ts ++ rest) = lexemesOf ts ++ ofChars rest := by
  induction ts with
  | nil => rfl
  | cons t ts ih =>
    obtain ⟨ht, hts⟩ := (allApart_cons t ts).1 h
    rw [charsOf_cons, lexemesOf_cons, List.append_assoc, List.append_assoc, ← ih hts]
    cases t with
    | code s => exact ofChars_code_append ht _
    | quoted s => exact ofChars_quote_append s _

theorem ofChars_charsOf {ts : List Token} (h : AllApart ts) :
    ofChars (charsOf ts) = lexemesOf ts := by
  have hr := ofChars_charsOf_append h []
  rwa [List.append_nil, ofChars, List.append_nil] at hr

theorem textOf_lexemesOf (ts : List Token) : textOf (lexemesOf ts) = charsOf ts := by
  induction ts with
  | nil => rfl
  | cons t ts ih =>
    have ht : textOf t.lexemes = t.chars := by
      cases t with
      | code s => simp [textOf, Token.lexemes, Token.chars, List.flatMap_map, Lexeme.text]
      | quoted s => simp [textOf, Token.lexemes, Token.chars, Lexeme.text]
    rw [lexemesOf_cons, charsOf_cons, ← ih, ← ht]
    exact List.flatMap_append

end Catalog.Script
