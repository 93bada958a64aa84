import Catalog.Proofs.Script.Scan
import Catalog.Script.Accessor

/-!
# Names in code

A reader that knows nothing of the grammar finds the names in the code of a line: the longest runs
of letters, digits, underscores and points, each cut at its points. What a run starts with decides
what it is. In a well written statement it is a word of the language, a number, a parameter, or a
binding that the statement uses or defines. Otherwise nothing stands before the first point, and the
run goes on from a bracket. All names behind these are members.
-/

namespace Catalog.Script

open Lexeme

/-- How a parameter or a binding takes part in a statement. -/
inductive Occurrence where
  | param (name : String)
  /-- A binding whose value is used. -/
  | use (name : String)
  | definition (name : String)
  deriving DecidableEq, Repr

namespace Expr

/-- The parameters and bindings that an expression refers to. -/
def occurrences : Expr → List Occurrence
  | source => []
  | param name => [.param name]
  | binding name => [.use name]
  | quoted _ => []
  | count _ => []
  | newMap => []
  | field c _ => c.occurrences
  | item c k => c.occurrences ++ k.occurrences
  | size c => c.occurrences
  | minus a b => a.occurrences ++ b.occurrences
  | plus a b => a.occurrences ++ b.occurrences
  | containsKey c k => c.occurrences ++ k.occurrences
  | isList c => c.occurrences
  | greater a b => a.occurrences ++ b.occurrences
  | atLeast a b => a.occurrences ++ b.occurrences
  | differs a b => a.occurrences ++ b.occurrences
  | not a => a.occurrences
  | and a b => a.occurrences ++ b.occurrences
  | or a b => a.occurrences ++ b.occurrences
  | choose c a b => c.occurrences ++ a.occurrences ++ b.occurrences

end Expr

/-- The parameters and bindings that a removal refers to. -/
def Removal.occurrences : Removal → List Occurrence
  | remove c k => c.occurrences ++ k.occurrences
  | choose c a b => c.occurrences ++ a.occurrences ++ b.occurrences

/-- The parameters and bindings that a statement refers to, and the bindings that it defines. -/
def Statement.occurrences : Statement → List Occurrence
  | when c body => c.occurrences ++ body.occurrences
  | branch c a b => c.occurrences ++ a.occurrences ++ b.occurrences
  | explain reason => reason.occurrences
  | assign place value => place.occurrences ++ value.occurrences
  | insert list index value => list.occurrences ++ index.occurrences ++ value.occurrences
  | overwrite list index value => list.occurrences ++ index.occurrences ++ value.occurrences
  | discard removal => removal.occurrences
  | define name removal => .definition name :: removal.occurrences

/-- A character of a name, or the point between two names. -/
def isDotted (c : Char) : Bool := isNameRest c || c == '.'

/-- A character of code, or an apostrophe in place of a whole literal. -/
def Piece.codeChar : Piece → Char
  | code c => c
  | literal _ => '\''

/-- The longest runs of name characters and points. -/
def runs (cs : List Char) : List (List Char) := cs.splitOnP fun c => !isDotted c

/-- The names between the points of a run. -/
def words (run : List Char) : List String := (run.splitOn '.').map String.ofList

/-- The names in the code of a scanned text. Those that stand between points are kept together. -/
def dottedNames (ps : List Piece) : List (List String) :=
  (runs (ps.map Piece.codeChar)).map words

/-- The words of the language itself. -/
def languageWords : List String :=
  ["if", "else", "instanceof", "new", "def", "ctx", "List", "HashMap", "Debug"]

/-- What the names of a run stand for, told from the first one. -/
inductive Denotes (os : List Occurrence) : List String → Prop where
  /-- The run goes on from a bracket, or is empty. -/
  | member (rest : List String) : Denotes os ("" :: rest)
  | word {w : String} (h : w ∈ languageWords) (rest : List String) : Denotes os (w :: rest)
  | number (n : Nat) (rest : List String) : Denotes os (Nat.repr n :: rest)
  | param {name : String} (h : .param name ∈ os) (rest : List String) :
    Denotes os ("params" :: name :: rest)
  | use {name : String} (h : .use name ∈ os) (rest : List String) : Denotes os (name :: rest)
  | definition {name : String} (h : .definition name ∈ os) (rest : List String) :
    Denotes os (name :: rest)

/-- All names in code are accounted for. -/
def AllDenote (os : List Occurrence) (cs : List Char) : Prop :=
  ∀ run ∈ runs cs, Denotes os (words run)

section

variable {os : List Occurrence} {xs ys cs : List Char} {c : Char}

theorem Denotes.append {ws : List String} (h : Denotes os ws) (more : List String) :
    Denotes os (ws ++ more) := by
  cases h with
  | member rest => exact .member _
  | word h rest => exact .word h _
  | number n rest => exact .number n _
  | param h rest => exact .param h _
  | use h rest => exact .use h _
  | definition h rest => exact .definition h _

theorem runs_append_cons (hc : isDotted c = false) (xs ys : List Char) :
    runs (xs ++ c :: ys) = runs xs ++ runs ys :=
  List.splitOnP_append_cons xs ys (by simp [hc])

theorem runs_eq_singleton (h : ∀ c ∈ cs, isDotted c = true) : runs cs = [cs] :=
  List.splitOnP_eq_singleton fun c hc => by simp [h c hc]

/-- A separator stands in no run. -/
theorem allDenote_append_cons (hc : isDotted c = false) :
    AllDenote os (xs ++ c :: ys) ↔ AllDenote os xs ∧ AllDenote os ys := by
  rw [AllDenote, runs_append_cons hc]
  exact List.forall_mem_append

/-- Name characters and points make up one run with what follows them. -/
theorem runs_append (h : ∀ c ∈ xs, isDotted c = true) (ys : List Char) :
    runs (xs ++ ys) = (runs ys).modifyHead (xs ++ ·) := by
  induction xs with
  | nil => exact (congrFun List.modifyHead_id _).symm
  | cons c xs ih =>
    obtain ⟨hc, hxs⟩ := List.forall_mem_cons.1 h
    rw [List.cons_append, runs, List.splitOnP_cons_eq_if_modifyHead, if_neg (by simp [hc]),
      ← runs, ih hxs, List.modifyHead_modifyHead]
    rfl

theorem words_append_point (xs ys : List Char) :
    words (xs ++ '.' :: ys) = words xs ++ words ys := by
  rw [words, List.splitOn_append_cons_self, List.map_append]
  rfl

/-- Every text is one run, or has a last separator. -/
theorem forall_isDotted_or_exists (cs : List Char) :
    (∀ c ∈ cs, isDotted c = true) ∨
      ∃ xs c ys, cs = xs ++ c :: ys ∧ isDotted c = false ∧ ∀ d ∈ ys, isDotted d = true := by
  induction cs with
  | nil => exact .inl (by simp)
  | cons c cs ih =>
    rcases ih with ih | ⟨xs, d, ys, rfl, hd, hys⟩
    · by_cases hc : isDotted c = true
      · exact .inl (List.forall_mem_cons.2 ⟨hc, ih⟩)
      · exact .inr ⟨[], c, cs, rfl, by simpa using hc, ih⟩
    · exact .inr ⟨c :: xs, d, ys, rfl, hd, hys⟩

/-- A run stays accounted for when it goes on behind a point. -/
theorem AllDenote.append_point (hx : AllDenote os xs) (hy : AllDenote os ('.' :: ys)) :
    AllDenote os (xs ++ '.' :: ys) := by
  -- Only the part of the text behind its last separator is joined with what follows.
  have hrun {xs : List Char} (hdotted : ∀ c ∈ xs, isDotted c = true) (hx : AllDenote os xs) :
      AllDenote os (xs ++ '.' :: ys) := by
    rw [AllDenote, runs_eq_singleton hdotted, List.forall_mem_singleton] at hx
    obtain ⟨first, rest, hsplit⟩ := List.exists_cons_of_ne_nil
      (List.splitOnP_ne_nil (fun c => !isDotted c) ys)
    have hpoint : runs ('.' :: ys) = ('.' :: first) :: rest := by
      rw [runs, List.splitOnP_cons_eq_if_modifyHead, hsplit]
      rfl
    rw [AllDenote, hpoint, List.forall_mem_cons] at hy
    rw [AllDenote, runs_append hdotted, hpoint, List.modifyHead_cons, List.forall_mem_cons,
      words_append_point]
    exact ⟨hx.append _, hy.2⟩
  rcases forall_isDotted_or_exists xs with hdotted | ⟨xs, c, zs, rfl, hc, hdotted⟩
  · exact hrun hdotted hx
  · rw [allDenote_append_cons hc] at hx
    rw [List.append_assoc, List.cons_append, allDenote_append_cons hc]
    exact ⟨hx.1, hrun hdotted hx.2⟩

theorem allDenote_nil : AllDenote os [] := List.forall_mem_singleton.2 (.member [])

/-- No run goes on behind the text. -/
def ClosesRun (cs : List Char) : Prop := cs.getLast?.all (fun c => !isDotted c) = true

/-- The text starts with a separator, or goes on behind a point. -/
def OpensRun : List Char → Prop
  | [] => False
  | c :: _ => isDotted c = false ∨ c = '.'

instance (cs : List Char) : Decidable (ClosesRun cs) :=
  inferInstanceAs (Decidable (cs.getLast?.all _ = true))

instance : (cs : List Char) → Decidable (OpensRun cs)
  | [] => inferInstanceAs (Decidable False)
  | c :: _ => inferInstanceAs (Decidable (isDotted c = false ∨ c = '.'))

/-- Texts that are accounted for are so one behind the other, unless a name goes on from one into
the other. -/
theorem AllDenote.append (hx : AllDenote os xs) (hy : AllDenote os ys)
    (h : ClosesRun xs ∨ OpensRun ys) : AllDenote os (xs ++ ys) := by
  rcases h with h | h
  · rcases List.eq_nil_or_concat xs with rfl | ⟨zs, c, rfl⟩
    · exact hy
    · rw [List.concat_eq_append] at hx h ⊢
      have hc : isDotted c = false := by simpa [ClosesRun] using h
      rw [List.append_assoc, List.singleton_append, allDenote_append_cons hc]
      exact ⟨((allDenote_append_cons hc).1 hx).1, hy⟩
  · cases ys with
    | nil => exact h.elim
    | cons c zs =>
      rcases h with hc | rfl
      · rw [← List.nil_append (c :: zs), allDenote_append_cons hc] at hy
        rw [allDenote_append_cons hc]
        exact ⟨hx, hy.2⟩
      · exact hx.append_point hy

/-- A single run is accounted for by its first names. -/
theorem allDenote_of_run (h : ∀ c ∈ cs, isDotted c = true) (hwords : Denotes os (words cs)) :
    AllDenote os cs := by
  rw [AllDenote, runs_eq_singleton h]
  exact List.forall_mem_singleton.2 hwords

theorem isDotted_of_isWord {name : String} (h : IsWord name) :
    ∀ c ∈ name.toList, isDotted c = true := fun c hc => by simp [isDotted, h c hc]

/-- A word stands between two points. -/
theorem words_of_isWord {name : String} (h : IsWord name) : words name.toList = [name] := by
  have hpoint : '.' ∉ name.toList := fun hc => absurd (h '.' hc) (by decide)
  rw [words, List.splitOn_eq_singleton hpoint, List.map_singleton, String.ofList_toList]

/-- The code of tokens, with an apostrophe in place of every literal. -/
def codeOf (ts : List Token) : List Char := (piecesOf ts).map Piece.codeChar

theorem codeOf_append (ts us : List Token) : codeOf (ts ++ us) = codeOf ts ++ codeOf us := by
  simp [codeOf, piecesOf]

theorem codeOf_code (s : String) : codeOf [.code s] = s.toList := by
  simp [codeOf, piecesOf, Token.pieces, Piece.codeChar, Function.comp_def]

/-- A text of the grammar: its names are words of the language. -/
def IsFixed (s : String) : Prop :=
  ∀ run ∈ runs s.toList, (words run).headD "" ∈ "" :: languageWords

instance (s : String) : Decidable (IsFixed s) :=
  inferInstanceAs (Decidable (∀ run ∈ runs s.toList, _))

theorem IsFixed.allDenote {s : String} (h : IsFixed s) : AllDenote os s.toList := by
  intro run hrun
  have hfirst := h run hrun
  cases hwords : words run with
  | nil => simp [words] at hwords
  | cons w rest =>
    rw [hwords, List.headD_cons] at hfirst
    rcases List.mem_cons.1 hfirst with rfl | hw
    · exact .member rest
    · exact .word hw rest

variable {ts us : List Token} {s : String}

/-- A text of the grammar in front. -/
theorem AllDenote.code_cons (hu : AllDenote os (codeOf us))
    (h : IsFixed s ∧ ClosesRun s.toList) : AllDenote os (codeOf (.code s :: us)) := by
  rw [← List.singleton_append, codeOf_append, codeOf_code]
  exact h.1.allDenote.append hu (.inl h.2)

/-- A text of the grammar at the end. -/
theorem AllDenote.append_code (ht : AllDenote os (codeOf ts))
    (h : IsFixed s ∧ OpensRun s.toList) : AllDenote os (codeOf (ts ++ [.code s])) := by
  rw [codeOf_append, codeOf_code]
  exact ht.append h.1.allDenote (.inr h.2)

/-- A text of the grammar in between. -/
theorem AllDenote.between (ht : AllDenote os (codeOf ts)) (hu : AllDenote os (codeOf us))
    (h : IsFixed s ∧ OpensRun s.toList ∧ ClosesRun s.toList) :
    AllDenote os (codeOf (ts ++ .code s :: us)) := by
  have hopens : OpensRun (codeOf (.code s :: us)) := by
    rw [← List.singleton_append, codeOf_append, codeOf_code]
    cases hs : s.toList with
    | nil => exact absurd h.2.1 (hs ▸ id)
    | cons c cs => exact (hs ▸ h.2.1 : OpensRun (c :: cs))
  rw [codeOf_append]
  exact ht.append (hu.code_cons ⟨h.1, h.2.2⟩) (.inr hopens)

/-- An apostrophe separates names. -/
theorem allDenote_quoted (s : String) : AllDenote os (codeOf [.quoted s]) := by
  have hseparates : isDotted '\'' = false := by decide
  exact (allDenote_append_cons hseparates).2 ⟨allDenote_nil, allDenote_nil⟩

/-- A text of the grammar by itself. -/
theorem IsFixed.allDenote_code (h : IsFixed s) : AllDenote os (codeOf [.code s]) :=
  codeOf_code s ▸ h.allDenote

theorem allDenote_code {name : String} (h : IsWord name) (hname : Denotes os [name]) :
    AllDenote os (codeOf [.code name]) := by
  rw [codeOf_code]
  exact allDenote_of_run (isDotted_of_isWord h) (words_of_isWord h ▸ hname)

theorem allDenote_param {name : String} (h : IsWord name) (hname : .param name ∈ os) :
    AllDenote os (codeOf [.code "params.", .code name]) := by
  have hchars : codeOf [.code "params.", .code name] = "params".toList ++ '.' :: name.toList := by
    rw [← List.singleton_append, codeOf_append, codeOf_code, codeOf_code]
    rfl
  rw [hchars]
  refine allDenote_of_run ?_ ?_
  · rw [List.forall_mem_append, List.forall_mem_cons]
    exact ⟨List.all_eq_true.1 (by decide), by decide, isDotted_of_isWord h⟩
  · rw [words_append_point, words_of_isWord h]
    exact .param hname []

/-- A member goes on behind a point. -/
theorem AllDenote.field {name : String} (ht : AllDenote os (codeOf ts)) (h : IsWord name) :
    AllDenote os (codeOf (ts ++ [.code ".", .code name])) := by
  have hchars : codeOf [.code ".", .code name] = '.' :: name.toList := by
    rw [← List.singleton_append, codeOf_append, codeOf_code, codeOf_code]
    rfl
  have hdotted : ∀ c ∈ '.' :: name.toList, isDotted c = true :=
    List.forall_mem_cons.2 ⟨by decide, isDotted_of_isWord h⟩
  have hmember : Denotes os (words ('.' :: name.toList)) :=
    words_append_point [] name.toList ▸ .member _
  rw [codeOf_append, hchars]
  exact ht.append_point (allDenote_of_run hdotted hmember)

/-- The names in the code of an expression are accounted for by its parameters and bindings. -/
theorem Expr.WellWritten.allDenote {e : Expr} (h : e.WellWritten) (hos : e.occurrences ⊆ os) :
    AllDenote os (codeOf e.tokens) := by
  -- One case for each printed form. Only the negation of a list check is printed in its own way.
  fun_induction Expr.tokens e with
  | case1 => exact IsFixed.allDenote_code (by decide)
  | case2 name => exact allDenote_param h (hos (List.mem_singleton_self _))
  | case3 name => exact allDenote_code h (.use (hos (List.mem_singleton_self _)) [])
  | case4 s => exact allDenote_quoted s
  | case5 n => exact allDenote_code (isWord_repr n) (.number n [])
  | case6 => exact IsFixed.allDenote_code (by decide)
  | case7 c name ih => exact (ih h.1 hos).field h.2
  | case8 c k ihc ihk | case12 c k ihc ihk =>
    obtain ⟨hc, hk⟩ := List.append_subset.1 hos
    exact ((ihc h.1 hc).between (ihk h.2 hk) (by decide)).append_code (by decide)
  | case9 c ih | case13 c ih => exact (ih h hos).append_code (by decide)
  | case10 a b iha ihb | case11 a b iha ihb | case14 a b iha ihb | case15 a b iha ihb
  | case16 a b iha ihb =>
    obtain ⟨ha, hb⟩ := List.append_subset.1 hos
    exact (iha h.1 ha).between (ihb h.2 hb) (by decide)
  | case17 c ih => exact ((ih h hos).code_cons (by decide)).append_code (by decide)
  | case18 a _ ih => exact (ih h hos).code_cons (by decide)
  | case19 a b iha ihb | case20 a b iha ihb =>
    obtain ⟨ha, hb⟩ := List.append_subset.1 hos
    exact (((iha h.1 ha).code_cons (by decide)).between (ihb h.2 hb) (by decide)).append_code
      (by decide)
  | case21 c a b ihc iha ihb =>
    obtain ⟨hca, hb⟩ := List.append_subset.1 hos
    obtain ⟨hc, ha⟩ := List.append_subset.1 hca
    exact ((((ihc h.1 hc).code_cons (by decide)).between (iha h.2.1 ha) (by decide)).between
      (ihb h.2.2 hb) (by decide)).append_code (by decide)

/-- So are those in the code of a removal. -/
theorem Removal.WellWritten.allDenote {r : Removal} (h : r.WellWritten)
    (hos : r.occurrences ⊆ os) : AllDenote os (codeOf r.tokens) := by
  induction r with
  | remove c k =>
    obtain ⟨hc, hk⟩ := List.append_subset.1 hos
    exact ((h.1.allDenote hc).between (h.2.allDenote hk) (by decide)).append_code (by decide)
  | choose c a b iha ihb =>
    obtain ⟨hca, hb⟩ := List.append_subset.1 hos
    obtain ⟨hc, ha⟩ := List.append_subset.1 hca
    exact ((((h.1.allDenote hc).code_cons (by decide)).between (iha h.2.1 ha) (by decide)).between
      (ihb h.2.2 hb) (by decide)).append_code (by decide)

/-- And those in the code of a statement, with the bindings that it defines. -/
theorem Statement.WellWritten.allDenote {st : Statement} (h : st.WellWritten)
    (hos : st.occurrences ⊆ os) : AllDenote os (codeOf st.tokens) := by
  induction st with
  | when c body ih =>
    obtain ⟨hc, hbody⟩ := List.append_subset.1 hos
    exact (((h.1.allDenote hc).code_cons (by decide)).between (ih h.2 hbody)
      (by decide)).append_code (by decide)
  | branch c a b iha ihb =>
    obtain ⟨hca, hb⟩ := List.append_subset.1 hos
    obtain ⟨hc, ha⟩ := List.append_subset.1 hca
    exact ((((h.1.allDenote hc).code_cons (by decide)).between (iha h.2.1 ha) (by decide)).between
      (ihb h.2.2 hb) (by decide)).append_code (by decide)
  | explain reason =>
    exact ((Expr.WellWritten.allDenote h hos).code_cons (by decide)).append_code (by decide)
  | assign place value =>
    obtain ⟨hplace, hvalue⟩ := List.append_subset.1 hos
    exact ((h.1.allDenote hplace).between (h.2.allDenote hvalue) (by decide)).append_code
      (by decide)
  | insert list index value | overwrite list index value =>
    obtain ⟨hfirst, hvalue⟩ := List.append_subset.1 hos
    obtain ⟨hlist, hindex⟩ := List.append_subset.1 hfirst
    exact (((h.1.allDenote hlist).between (h.2.1.allDenote hindex) (by decide)).between
      (h.2.2.allDenote hvalue) (by decide)).append_code (by decide)
  | discard removal => exact (Removal.WellWritten.allDenote h hos).append_code (by decide)
  | define name removal =>
    obtain ⟨hname, hremoval⟩ := List.cons_subset.1 hos
    have hdef : AllDenote os (codeOf [.code "def ", .code name]) :=
      (allDenote_code h.1 (.definition hname [])).code_cons (by decide)
    exact (hdef.between (h.2.allDenote hremoval) (by decide)).append_code (by decide)

/-- Scanning a well written statement finds names that are all accounted for. -/
theorem Statement.WellWritten.exists_denotes {st : Statement} (h : st.WellWritten) :
    ∃ pieces, scan st.text.toList = some pieces ∧
      ∀ ws ∈ dottedNames pieces, Denotes st.occurrences ws := by
  refine ⟨piecesOf st.tokens, ?_, ?_⟩
  · rw [← st.charsOf_tokens, scan_charsOf h.regular]
  · rw [dottedNames, List.forall_mem_map]
    exact h.allDenote (List.Subset.refl _)

example : (scan "ctx._source.params.x = params.a_0 + 'params.y';".toList).map dottedNames =
    some [["ctx", "_source", "params", "x"], [""], [""], ["params", "a_0"], [""], [""], [""], [""],
      [""]] := by decide

theorem isAlpha_eq_false_of_isDigit {c : Char} (h : c.isDigit = true) : c.isAlpha = false := by
  obtain ⟨hc, hlt⟩ := Text.digitChar_toNat_sub h
  have hdigits : ∀ d < 10, (Nat.digitChar d).isAlpha = false := by decide
  exact hc ▸ hdigits _ hlt

/-- No number is an identifier. -/
theorem isIdentifier_repr (n : Nat) : isIdentifier (Nat.repr n) = false := by
  unfold isIdentifier
  split
  · rfl
  · next c rest hchars =>
    have hmem : c ∈ Nat.toDigits 10 n := by
      rw [← Nat.toList_repr, hchars]
      exact List.mem_cons_self ..
    have hdigit := Nat.isDigit_of_mem_toDigits (by decide) (by decide) hmem
    have hunderscore : (c == '_') = false := by
      refine beq_eq_false_iff_ne.2 ?_
      rintro rfl
      exact absurd hdigit (by decide)
    rw [isAlpha_eq_false_of_isDigit hdigit, hunderscore, Bool.or_self, Bool.false_and]

/-- What follows the name of the parameters is a parameter. -/
theorem Denotes.exists_param {rest : List String} (h : Denotes os ("params" :: rest))
    (huse : .use "params" ∉ os) (hdefinition : .definition "params" ∉ os) :
    ∃ name more, rest = name :: more ∧ .param name ∈ os := by
  generalize hws : "params" :: rest = ws at h
  cases h with
  | member rest => simp at hws
  | word h rest =>
    obtain rfl := (List.cons.inj hws).1
    exact absurd h (by decide)
  | number n rest =>
    have hnumber := isIdentifier_repr n
    rw [← (List.cons.inj hws).1] at hnumber
    exact absurd hnumber (by decide)
  | param h more => exact ⟨_, more, (List.cons.inj hws).2, h⟩
  | use h rest => exact absurd ((List.cons.inj hws).1 ▸ h) huse
  | definition h rest => exact absurd ((List.cons.inj hws).1 ▸ h) hdefinition

/-- An identifier that means nothing else is a binding. -/
theorem Denotes.use_or_definition {name : String} {rest : List String}
    (h : Denotes os (name :: rest)) (hname : isIdentifier name = true) (hparams : name ≠ "params")
    (hword : name ∉ languageWords) : .use name ∈ os ∨ .definition name ∈ os := by
  cases h with
  | member => exact absurd hname (by decide)
  | word h => exact absurd h hword
  | number n => exact absurd hname (by simp [isIdentifier_repr])
  | param => exact absurd rfl hparams
  | use h => exact .inl h
  | definition h => exact .inr h

end

end Catalog.Script
