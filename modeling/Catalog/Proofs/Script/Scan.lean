import Catalog.Proofs.Script.Atoms

/-!
# Scanning script text

A reader that knows nothing of the grammar takes a line from left to right: a literal opens at an
apostrophe, and ends at the next one that no backslash escapes. Every literal has to end, and inside
one a backslash escapes only a backslash or an apostrophe. What it finds in the text of regular
tokens are the tokens: whatever a quoted text holds is read back as the contents of its literal.
-/

namespace Catalog.Script

/-- A character of code, or a whole literal with its escapes read. -/
inductive Piece where
  | code (c : Char)
  | literal (contents : String)
  deriving DecidableEq, Repr

/-- Scan a text from outside of literals, or from inside one with its contents so far, last character
first. -/
def scanFrom : Option (List Char) → List Char → Option (List Piece)
  | none, [] => some []
  | none, c :: rest =>
    if c = '\'' then scanFrom (some []) rest else (scanFrom none rest).map (.code c :: ·)
  | some _, [] => none
  | some seen, '\'' :: rest =>
    (scanFrom none rest).map (.literal (String.ofList seen.reverse) :: ·)
  | some seen, '\\' :: c :: rest =>
    if c = '\\' ∨ c = '\'' then scanFrom (some (c :: seen)) rest else none
  | some seen, c :: rest => scanFrom (some (c :: seen)) rest

/-- The pieces of a text, unless a literal does not end or holds another escape. -/
def scan (cs : List Char) : Option (List Piece) := scanFrom none cs

namespace Token

/-- The pieces of a token. -/
def pieces : Token → List Piece
  | code s => s.toList.map .code
  | quoted s => [.literal s]

end Token

/-- The pieces of a list of tokens. -/
def piecesOf (ts : List Token) : List Piece := ts.flatMap Token.pieces

theorem scan_cons_code {c : Char} (h : c ≠ '\'') (rest : List Char) :
    scan (c :: rest) = (scan rest).map (.code c :: ·) := by
  rw [scan, scanFrom, if_neg h]
  rfl

/-- Code without apostrophes is scanned character by character. -/
theorem scan_code_append {cs : List Char} (h : '\'' ∉ cs) (rest : List Char) :
    scan (cs ++ rest) = (scan rest).map (cs.map .code ++ ·) := by
  induction cs with
  | nil => simp
  | cons c cs ih =>
    have hc : c ≠ '\'' := fun he => h (he ▸ List.mem_cons_self ..)
    have hcs : '\'' ∉ cs := fun hm => h (List.mem_cons_of_mem _ hm)
    rw [List.cons_append, scan_cons_code hc, ih hcs, Option.map_map]
    rfl

/-- Inside a literal, escaped characters are contents up to the closing apostrophe. -/
theorem scanFrom_encode_append (seen cs rest : List Char) :
    scanFrom (some seen) (Text.Quoted.encode cs ++ '\'' :: rest) =
      (scan rest).map (.literal (String.ofList (seen.reverse ++ cs)) :: ·) := by
  fun_induction Text.Quoted.encode cs generalizing seen with
  | case1 => rw [List.nil_append, scanFrom, List.append_nil, scan]
  | case2 cs ih => simp [scanFrom, ih]
  | case3 cs ih => simp [scanFrom, ih]
  | case4 c cs hb hq ih =>
    rw [List.cons_append, scanFrom.eq_6 _ _ _ (by simpa using hq) (by simp_all), ih]
    simp

/-- A quoted text is scanned as one literal, which holds that text. -/
theorem scan_quote_append (s : String) (rest : List Char) :
    scan ((Text.quote s).toList ++ rest) = (scan rest).map (.literal s :: ·) := by
  have hchars : (Text.quote s).toList ++ rest =
      '\'' :: (Text.Quoted.encode s.toList ++ '\'' :: rest) := by
    rw [Text.quote, String.toList_ofList, List.append_assoc]
    rfl
  rw [hchars, scan, scanFrom, if_pos rfl, scanFrom_encode_append]
  simp

/-- Scanning the text of regular tokens finds their pieces, whatever follows. -/
theorem scan_charsOf_append {ts : List Token} (h : AllRegular ts) (rest : List Char) :
    scan (charsOf ts ++ rest) = (scan rest).map (piecesOf ts ++ ·) := by
  induction ts with
  | nil => simp [piecesOf]
  | cons t ts ih =>
    obtain ⟨ht, hts⟩ := (allRegular_cons t ts).1 h
    have hpieces (ps : List Piece) : piecesOf (t :: ts) ++ ps = t.pieces ++ (piecesOf ts ++ ps) := by
      rw [piecesOf, List.flatMap_cons, List.append_assoc, ← piecesOf]
    simp only [hpieces]
    rw [charsOf_cons, List.append_assoc]
    cases t with
    | code s =>
      rw [Token.chars, scan_code_append ht.quotesApart, ih hts, Option.map_map]
      rfl
    | quoted s =>
      rw [Token.chars, scan_quote_append, ih hts, Option.map_map]
      rfl

/-- Scanning the text of regular tokens finds their pieces. -/
theorem scan_charsOf {ts : List Token} (h : AllRegular ts) :
    scan (charsOf ts) = some (piecesOf ts) := by
  have hs := scan_charsOf_append h []
  rw [List.append_nil] at hs
  simpa [scan, scanFrom] using hs

theorem literal_mem_piecesOf {ts : List Token} {s : String} :
    .literal s ∈ piecesOf ts ↔ .quoted s ∈ ts := by
  constructor
  · intro h
    obtain ⟨t, ht, hs⟩ := List.mem_flatMap.1 h
    cases t with
    | code c => simp [Token.pieces] at hs
    | quoted u =>
      obtain rfl : s = u := by simpa [Token.pieces] using hs
      exact ht
  · intro h
    exact List.mem_flatMap.2 ⟨.quoted s, h, List.mem_singleton_self _⟩

/-- The code of regular tokens is written with code characters. -/
theorem isCodeChar_of_mem_piecesOf {ts : List Token} (h : AllRegular ts) {c : Char}
    (hc : .code c ∈ piecesOf ts) : Token.isCodeChar c = true := by
  obtain ⟨t, ht, hm⟩ := List.mem_flatMap.1 hc
  cases t with
  | code s =>
    have hcs : c ∈ s.toList := by simpa [Token.pieces] using hm
    exact (h _ ht).1 c hcs
  | quoted s => simp [Token.pieces] at hm

/-- Scanning a well written statement finds its literals, and code characters besides. -/
theorem Statement.WellWritten.scan_text {st : Statement} (h : st.WellWritten) :
    ∃ pieces, scan st.text.toList = some pieces ∧
      (∀ s, .literal s ∈ pieces ↔ .literal s ∈ st.atoms) ∧
      ∀ c, .code c ∈ pieces → Token.isCodeChar c = true := by
  refine ⟨piecesOf st.tokens, ?_, fun s => ?_, fun c hc => ?_⟩
  · rw [← st.charsOf_tokens, scan_charsOf h.regular]
  · rw [literal_mem_piecesOf, st.quoted_mem_tokens]
  · exact isCodeChar_of_mem_piecesOf h.regular hc

end Catalog.Script
