import Catalog.Proofs.Script.Lengths
import Catalog.Proofs.Script.Settled

/-!
# Accessors are told apart by their text

The text of a chain can be read in one way only. A literal in it ends where it was closed, so names
that look like accessors stay inside their quotes, and the last segment is read off the end of the
lexemes. What is left of the length after the part of that segment is a multiple of the length of the
container, which therefore stands at a known place of the text.
-/

namespace Catalog

open Script Lexeme

namespace Segment

/-- The lexemes that an accessor of a segment ends with. -/
def ending : Segment → List Lexeme
  | .key name =>
    if isIdentifier name then .code '.' :: name.toList.map .code
    else [.code '[', .literal (Text.quote name).toList, .code ']']
  | .position n => [.literal (Text.quote (Nat.repr n)).toList, .code ']', .code ')']
  | .fromEnd n => .code ' ' :: (Nat.repr n).toList.map .code ++ [.code ']']
  | .append => [.code ')', .code ']']

theorem exists_lexemesOf_accessor (c : Expr) (s : Segment) :
    ∃ front, lexemesOf (s.accessor c).tokens = front ++ s.ending := by
  cases s with
  | key name =>
    refine ⟨lexemesOf c.tokens, ?_⟩
    simp only [accessor, ending]
    split
    · simp [Expr.tokens, Token.lexemes]
    · simp [Expr.tokens, Token.lexemes]
  | position n =>
    refine ⟨lexemesOf (.code "(" :: (Expr.isList c).tokens ++ .code " ? " ::
      (Expr.item c (.count n)).tokens ++ .code " : " :: c.tokens ++ [.code "["]), ?_⟩
    simp [accessor, ending, Expr.tokens, Token.lexemes]
  | fromEnd n =>
    refine ⟨lexemesOf (c.tokens ++ .code "[" :: (Expr.size c).tokens ++ [.code " -"]), ?_⟩
    simp [accessor, selector, ending, Expr.tokens, Token.lexemes]
  | append =>
    refine ⟨lexemesOf (c.tokens ++ .code "[" :: c.tokens ++ [.code ".size("]), ?_⟩
    simp [accessor, selector, ending, Expr.tokens, Token.lexemes]

/-- The contents of a literal. -/
def contents (literal : List Char) : List Char :=
  ((Text.Quoted.decode literal.tail).map Prod.fst).getD []

/-- The last segment of an accessor, read from its lexemes in reverse. -/
def readLast : List Lexeme → Segment
  | .code ']' :: .literal q :: _ => .key (String.ofList (contents q))
  | .code ']' :: .code ')' :: _ => .append
  | .code ']' :: rest =>
    .fromEnd (Nat.ofDigitChars 10 (spanCode isNameRest rest).1.reverse 0)
  | .code ')' :: .code ']' :: .literal q :: _ => .position (Nat.ofDigitChars 10 (contents q) 0)
  | rest => .key (String.ofList (spanCode isNameRest rest).1.reverse)

theorem contents_quote (s : String) : contents (Text.quote s).toList = s.toList := by
  rw [contents, Text.quote, String.toList_ofList, List.cons_append, List.tail_cons,
    Text.Quoted.decode_encode]
  rfl

/-- A run of name characters is read up to what stands in front of it. -/
theorem spanCode_reverse {word : List Char} (h : ∀ c ∈ word, isNameRest c = true) {c : Char}
    (hc : isNameRest c = false) (front : List Lexeme) :
    spanCode isNameRest ((word.map .code).reverse ++ .code c :: front) =
      (word.reverse, .code c :: front) := by
  rw [← List.map_reverse]
  exact spanCode_map_append (fun d hd => h d (List.mem_reverse.1 hd)) (spanCode_cons_of_false hc _)

theorem exists_map_reverse {word : List Char} (h : ∀ c ∈ word, isNameRest c = true)
    (hne : word ≠ []) (rest : List Lexeme) :
    ∃ c tail, (word.map Lexeme.code).reverse ++ rest = .code c :: tail ∧ isNameRest c = true := by
  obtain ⟨start, c, rfl⟩ := (List.eq_nil_or_concat word).resolve_left hne
  rw [List.concat_eq_append] at h ⊢
  exact ⟨c, (start.map Lexeme.code).reverse ++ rest, by simp, h c (by simp)⟩

theorem readLast_word {ls tail : List Lexeme} {c : Char} (h : ls = .code c :: tail)
    (hc : isNameRest c = true) :
    readLast ls = .key (String.ofList (spanCode isNameRest ls).1.reverse) := by
  have hbracket : c ≠ ']' := by rintro rfl; exact absurd hc (by decide)
  have hparen : c ≠ ')' := by rintro rfl; exact absurd hc (by decide)
  rw [readLast]
  all_goals simp_all

theorem readLast_fromEnd {ls tail : List Lexeme} {c : Char} (h : ls = .code c :: tail)
    (hc : isNameRest c = true) :
    readLast (.code ']' :: ls) =
      .fromEnd (Nat.ofDigitChars 10 (spanCode isNameRest ls).1.reverse 0) := by
  have hparen : c ≠ ')' := by rintro rfl; exact absurd hc (by decide)
  rw [readLast]
  all_goals simp_all

/-- Whatever stands before it, the ending of a segment is read back as the segment. -/
theorem readLast_ending (front : List Lexeme) (s : Segment) :
    readLast (front ++ s.ending).reverse = s := by
  cases s with
  | key name =>
    by_cases hi : isIdentifier name = true
    · have hword : ∀ c ∈ name.toList, isNameRest c = true := isWord_of_isIdentifier hi
      have hne : name.toList ≠ [] := by
        intro hnil
        simp [isIdentifier, hnil] at hi
      have hreverse : (front ++ (key name).ending).reverse =
          (name.toList.map .code).reverse ++ .code '.' :: front.reverse := by
        simp [ending, hi]
      obtain ⟨c, tail, htail, hc⟩ := exists_map_reverse hword hne (.code '.' :: front.reverse)
      rw [hreverse, readLast_word htail hc, spanCode_reverse hword (by decide),
        List.reverse_reverse, String.ofList_toList]
    · have hreverse : (front ++ (key name).ending).reverse =
          .code ']' :: .literal (Text.quote name).toList :: .code '[' :: front.reverse := by
        simp [ending, hi]
      rw [hreverse, readLast, contents_quote, String.ofList_toList]
  | position n =>
    have hreverse : (front ++ (position n).ending).reverse =
        .code ')' :: .code ']' :: .literal (Text.quote (Nat.repr n)).toList :: front.reverse := by
      simp [ending]
    rw [hreverse, readLast, contents_quote, Nat.toList_repr, Nat.ofDigitChars_ten_toDigits]
  | fromEnd n =>
    have hword : ∀ c ∈ (Nat.repr n).toList, isNameRest c = true := isWord_repr n
    have hne : (Nat.repr n).toList ≠ [] := by
      rw [Nat.toList_repr]
      exact Nat.toDigits_ne_nil
    have hreverse : (front ++ (fromEnd n).ending).reverse =
        .code ']' :: (((Nat.repr n).toList.map .code).reverse ++ .code ' ' :: front.reverse) := by
      simp [ending]
    obtain ⟨c, tail, htail, hc⟩ := exists_map_reverse hword hne (.code ' ' :: front.reverse)
    rw [hreverse, readLast_fromEnd htail hc, spanCode_reverse hword (by decide),
      List.reverse_reverse, Nat.toList_repr, Nat.ofDigitChars_ten_toDigits]
  | append =>
    have hreverse : (front ++ append.ending).reverse =
        .code ']' :: .code ')' :: front.reverse := by
      simp [ending]
    rw [hreverse, readLast]

theorem quotesApart_of_isWord {name : String} (h : IsWord name) :
    (Token.code name).QuotesApart := (Token.regular_code_of_word h).quotesApart

/-- An accessor adds no apostrophe to the code of its container. -/
theorem allApart_accessor {c : Expr} (hc : AllApart c.tokens) (s : Segment) :
    AllApart (s.accessor c).tokens := by
  cases s with
  | key name =>
    simp only [accessor]
    split
    · next hi =>
      have hname := quotesApart_of_isWord (isWord_of_isIdentifier hi)
      simp +decide only [Expr.tokens, allApart_append, allApart_cons, allApart_nil, hc, hname]
    · simp +decide only [Expr.tokens, allApart_append, allApart_cons, allApart_nil, hc,
        Token.quotesApart_quoted]
  | append =>
    simp +decide only [accessor, selector, Expr.tokens, allApart_append, allApart_cons,
      allApart_nil, hc]
  | position n | fromEnd n =>
    have hn := quotesApart_of_isWord (isWord_repr n)
    simp +decide only [accessor, selector, Expr.tokens, allApart_append, allApart_cons,
      allApart_nil, hc, hn, Token.quotesApart_quoted]

theorem allApart_chain (ss : List Segment) : AllApart (chain ss).tokens := by
  induction ss using List.reverseRecOn with
  | nil => simp +decide [chain, Expr.tokens]
  | append_singleton ss s ih => exact chain_append_singleton ss s ▸ allApart_accessor ih s

/-- The lexemes of tokens can be told from their text. -/
theorem lexemesOf_eq_of_charsOf {ts us : List Token} (ht : AllApart ts) (hu : AllApart us)
    (h : charsOf ts = charsOf us) : lexemesOf ts = lexemesOf us := by
  rw [← ofChars_charsOf ht, ← ofChars_charsOf hu, h]

/-- The container stands at a known place in the text of an accessor. -/
theorem exists_text_accessor (s : Segment) : ∃ front : List Char, ∀ c : Expr, ∃ rest,
    (s.accessor c).text.toList = front ++ (c.text.toList ++ rest) := by
  cases s with
  | key name =>
    refine ⟨[], fun c => ?_⟩
    simp only [accessor]
    split
    · exact ⟨_, by simp only [Expr.text, String.toList_append, List.append_assoc]; rfl⟩
    · exact ⟨_, by simp only [Expr.text, String.toList_append, List.append_assoc]; rfl⟩
  | position n =>
    exact ⟨['('], fun c => ⟨_, by
      simp only [accessor, Expr.text, String.toList_append, List.append_assoc]; rfl⟩⟩
  | _ =>
    exact ⟨[], fun c => ⟨_, by
      simp only [accessor, Expr.text, String.toList_append, List.append_assoc]; rfl⟩⟩

theorem copies_pos (s : Segment) : 0 < s.copies := by
  unfold copies
  split
  · decide
  · split
    · decide
    · decide

theorem added_pos (s : Segment) : 0 < s.added := by
  cases s with
  | key name => simp only [added]; split <;> omega
  | _ => simp [added]

/-- Accessors of one segment with the same text have containers with the same text. -/
theorem text_eq_of_text_accessor_eq {s : Segment} {c c' : Expr}
    (h : (s.accessor c).text = (s.accessor c').text) : c.text = c'.text := by
  have hlength : c.text.toList.length = c'.text.toList.length := by
    have hlength := congrArg String.length h
    rw [length_text_accessor, length_text_accessor, Nat.add_right_cancel_iff] at hlength
    rw [String.length_toList, String.length_toList]
    exact Nat.eq_of_mul_eq_mul_left s.copies_pos hlength
  obtain ⟨front, hfront⟩ := s.exists_text_accessor
  obtain ⟨rest, hrest⟩ := hfront c
  obtain ⟨rest', hrest'⟩ := hfront c'
  rw [h, hrest'] at hrest
  exact String.toList_inj.1 (List.append_inj (List.append_cancel_left hrest) hlength.symm).1.symm

/-- The last segment of a chain can be told from its text. -/
theorem eq_of_text_accessor_eq {s s' : Segment} {ss ss' : List Segment}
    (h : (s.accessor (chain ss)).text = (s'.accessor (chain ss')).text) : s = s' := by
  have hlexemes : lexemesOf (s.accessor (chain ss)).tokens =
      lexemesOf (s'.accessor (chain ss')).tokens := by
    refine lexemesOf_eq_of_charsOf (allApart_accessor (allApart_chain ss) s)
      (allApart_accessor (allApart_chain ss') s') ?_
    rw [Expr.charsOf_tokens, Expr.charsOf_tokens, h]
  obtain ⟨front, hfront⟩ := exists_lexemesOf_accessor (chain ss) s
  obtain ⟨front', hfront'⟩ := exists_lexemesOf_accessor (chain ss') s'
  rw [← readLast_ending front s, ← hfront, hlexemes, hfront', readLast_ending]

/-- A longer chain has a longer text than the document's own accessor. -/
theorem text_chain_ne_source (ss : List Segment) (s : Segment) :
    (chain []).text ≠ (chain (ss ++ [s])).text := by
  intro h
  have hlength := congrArg String.length h
  have hlower := growth_le_length_chain ss
  have hgrowth := growth_pos ss
  have hadded := s.added_pos
  have hcopies := Nat.le_mul_of_pos_left (chain ss).text.length s.copies_pos
  have hsource : (chain []).text.length = 11 := rfl
  rw [hsource, chain_append_singleton, length_text_accessor] at hlength
  omega

/-- Chains with the same text are chains of the same segments. -/
theorem text_chain_inj {ss us : List Segment} (h : (chain ss).text = (chain us).text) :
    ss = us := by
  induction ss using List.reverseRecOn generalizing us with
  | nil =>
    rcases List.eq_nil_or_concat us with rfl | ⟨us, u, rfl⟩
    · rfl
    · exact absurd (List.concat_eq_append ▸ h) (text_chain_ne_source us u)
  | append_singleton ss s ih =>
    rcases List.eq_nil_or_concat us with rfl | ⟨us, u, rfl⟩
    · exact absurd h.symm (text_chain_ne_source ss s)
    · rw [List.concat_eq_append] at h ⊢
      rw [chain_append_singleton, chain_append_singleton] at h
      obtain rfl := eq_of_text_accessor_eq h
      rw [ih (text_eq_of_text_accessor_eq h)]

end Segment

end Catalog
