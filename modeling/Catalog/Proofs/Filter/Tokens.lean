import Catalog.Proofs.Filter.Wildcard

/-!
# Patterns as tokens

A pattern is read token by token. A token is a backslash with the special character that it escapes,
or any other character but a backslash. A pattern is translated exactly when it is a sequence of
tokens, each token to one character, and the position in an error is that of the first backslash
that starts no token. What a pattern matches is said of the pattern itself; the backend finds the
same matches for its translation, as long as the pattern holds none of the backend's own wildcards.
-/

namespace Catalog

namespace Like

/-- A token of a pattern. -/
inductive Token where
  /-- A backslash and the special character behind it. -/
  | escaped (c : Char) (special : isSpecial c = true)
  /-- A percent sign. -/
  | run
  /-- An underscore. -/
  | one
  | char (c : Char) (ordinary : isSpecial c = false)
  deriving DecidableEq, Repr

namespace Token

/-- How a token is written. -/
def text : Token → List Char
  | escaped c _ => ['\\', c]
  | run => ['%']
  | one => ['_']
  | char c _ => [c]

/-- The character that a token is translated to. -/
def image : Token → Char
  | escaped c _ => c
  | run => '*'
  | one => '?'
  | char c _ => c

/-- What a token stands for. -/
def part : Token → Wildcard.Part
  | escaped c _ => .char c
  | run => .run
  | one => .one
  | char c _ => .char c

end Token

/-- How tokens are written one behind the other. -/
def spell (ts : List Token) : List Char := ts.flatMap Token.text

@[simp] theorem spell_nil : spell [] = [] := rfl

@[simp] theorem spell_cons (t : Token) (ts : List Token) : spell (t :: ts) = t.text ++ spell ts :=
  List.flatMap_cons

@[simp] theorem spell_append (ts us : List Token) : spell (ts ++ us) = spell ts ++ spell us :=
  List.flatMap_append

/-- A backslash comes next, and it escapes nothing. -/
def Stuck (cs : List Char) : Prop :=
  ∃ rest, cs = '\\' :: rest ∧ ∀ c ∈ rest.head?, isSpecial c = false

/-- Behind tokens that take up so many characters comes a backslash that escapes nothing. -/
def StopsAt (cs : List Char) (position : Nat) : Prop :=
  ∃ ts rest, cs = spell ts ++ rest ∧ Stuck rest ∧ position = (spell ts).length

/-- A character that is not special differs from every special one. -/
theorem ne_of_not_special {c d : Char} (hc : isSpecial c = false) (hd : isSpecial d = true) :
    c ≠ d := by
  rintro rfl
  rw [hc] at hd
  cases hd

/-- The first token is translated by itself, and takes up the characters that it is written with. -/
theorem translateFrom_token (t : Token) (n : Nat) (rest : List Char) :
    translateFrom n (t.text ++ rest) =
      (translateFrom (n + t.text.length) rest).map (t.image :: ·) := by
  cases t with
  | escaped c special => simp [Token.text, Token.image, translateFrom, special]
  | run => simp [Token.text, Token.image, translateFrom, wildcard]
  | one => simp [Token.text, Token.image, translateFrom, wildcard]
  | char c ordinary =>
    have hbackslash : c ≠ '\\' := ne_of_not_special ordinary rfl
    have hrun : c ≠ '%' := ne_of_not_special ordinary rfl
    have hone : c ≠ '_' := ne_of_not_special ordinary rfl
    rw [Token.text, List.cons_append, List.nil_append,
      translateFrom.eq_4 _ _ _ (by simp [hbackslash]) (by simp [hbackslash]), wildcard,
      if_neg hrun, if_neg hone]
    rfl

/-- Tokens are translated one by one, whatever comes behind them. -/
theorem translateFrom_spell (ts : List Token) (n : Nat) (rest : List Char) :
    translateFrom n (spell ts ++ rest) =
      (translateFrom (n + (spell ts).length) rest).map (ts.map Token.image ++ ·) := by
  induction ts generalizing n with
  | nil =>
    cases h : translateFrom n rest with
    | error => simp [h, Except.map]
    | ok => simp [h, Except.map]
  | cons t ts ih =>
    rw [spell_cons, List.append_assoc, translateFrom_token, ih, Outcome.map_map,
      List.length_append, Nat.add_assoc]
    rfl

theorem translateFrom_of_stuck {cs : List Char} (h : Stuck cs) (n : Nat) :
    translateFrom n cs = .error n := by
  obtain ⟨rest, rfl, hrest⟩ := h
  cases rest with
  | nil => rfl
  | cons c rest =>
    have hc : isSpecial c = false := hrest c rfl
    simp [translateFrom, hc]

/-- A character that is no backslash is a token. -/
theorem exists_token {c : Char} (hc : c ≠ '\\') : ∃ t : Token, t.text = [c] := by
  by_cases hspecial : isSpecial c = true
  · have hwild : c = '%' ∨ c = '_' := by simpa [isSpecial, hc] using hspecial
    rcases hwild with rfl | rfl
    · exact ⟨.run, rfl⟩
    · exact ⟨.one, rfl⟩
  · exact ⟨.char c (Bool.eq_false_iff.2 hspecial), rfl⟩

/-- Every text starts with tokens, and behind them it ends or is stuck. -/
theorem exists_tokens (cs : List Char) :
    ∃ ts rest, cs = spell ts ++ rest ∧ (rest = [] ∨ Stuck rest) := by
  -- The cases are those of the translation: each one finds a token, or the end, or is stuck.
  fun_induction translateFrom 0 cs with
  | case1 => exact ⟨[], [], rfl, .inl rfl⟩
  | case2 => exact ⟨[], ['\\'], rfl, .inr ⟨[], rfl, by simp⟩⟩
  | case3 n c rest hc ih =>
    obtain ⟨ts, behind, rfl, hbehind⟩ := ih
    exact ⟨.escaped c hc :: ts, behind, rfl, hbehind⟩
  | case4 n c rest hc =>
    refine ⟨[], '\\' :: c :: rest, rfl, .inr ⟨c :: rest, rfl, ?_⟩⟩
    simpa using hc
  | case5 n c rest hend hescape ih =>
    have hc : c ≠ '\\' := by
      rintro rfl
      cases rest with
      | nil => exact hend rfl rfl
      | cons d rest => exact hescape d rest rfl rfl
    obtain ⟨t, ht⟩ := exists_token hc
    obtain ⟨ts, behind, rfl, hbehind⟩ := ih
    exact ⟨t :: ts, behind, by simp [ht], hbehind⟩

/-- A translation goes through exactly for tokens, and gives their images. -/
theorem translateFrom_eq_ok_iff {cs out : List Char} {n : Nat} :
    translateFrom n cs = .ok out ↔ ∃ ts, cs = spell ts ∧ out = ts.map Token.image := by
  constructor
  · intro h
    obtain ⟨ts, rest, rfl, rfl | hstuck⟩ := exists_tokens cs
    · rw [translateFrom_spell] at h
      cases h
      exact ⟨ts, by simp, by simp⟩
    · rw [translateFrom_spell, translateFrom_of_stuck hstuck] at h
      cases h
  · rintro ⟨ts, rfl, rfl⟩
    have hspell := translateFrom_spell ts n []
    rw [List.append_nil] at hspell
    rw [hspell]
    simp [translateFrom, Except.map]

/-- It stops at the first backslash that escapes nothing. -/
theorem translateFrom_eq_error_iff {cs : List Char} {position : Nat} :
    translateFrom 0 cs = .error position ↔ StopsAt cs position := by
  constructor
  · intro h
    obtain ⟨ts, rest, rfl, rfl | hstuck⟩ := exists_tokens cs
    · rw [List.append_nil, translateFrom_eq_ok_iff.2 ⟨ts, rfl, rfl⟩] at h
      cases h
    · rw [translateFrom_spell, translateFrom_of_stuck hstuck, Nat.zero_add] at h
      cases h
      exact ⟨ts, rest, rfl, hstuck, rfl⟩
  · rintro ⟨ts, rest, rfl, hstuck, rfl⟩
    rw [translateFrom_spell, translateFrom_of_stuck hstuck, Nat.zero_add]
    rfl

theorem translate_eq_ok_iff {p t : String} :
    translate p = .ok t ↔ ∃ ts, p.toList = spell ts ∧ t = String.ofList (ts.map Token.image) := by
  have hchars : translate p = .ok t ↔
      ∃ out, translateFrom 0 p.toList = .ok out ∧ String.ofList out = t := by
    cases h : translateFrom 0 p.toList with
    | ok out => simp [translate, h]
    | error position => simp [translate, h]
  rw [hchars]
  constructor
  · rintro ⟨out, hout, rfl⟩
    obtain ⟨ts, hp, rfl⟩ := translateFrom_eq_ok_iff.1 hout
    exact ⟨ts, hp, rfl⟩
  · rintro ⟨ts, hp, rfl⟩
    exact ⟨_, translateFrom_eq_ok_iff.2 ⟨ts, hp, rfl⟩, rfl⟩

theorem translate_eq_error_iff {p : String} {e : CompileError} :
    translate p = .error e ↔ ∃ position, StopsAt p.toList position ∧
      e = .escapeSequence p position := by
  cases h : translateFrom 0 p.toList with
  | ok out =>
    have hnone : ∀ position, ¬StopsAt p.toList position := fun position hstops => by
      rw [translateFrom_eq_error_iff.2 hstops] at h
      cases h
    simp [translate, h, hnone]
  | error position =>
    have hall : ∀ n, StopsAt p.toList n ↔ n = position := fun n => by
      rw [← translateFrom_eq_error_iff, h, Except.error.injEq, eq_comm]
    simp [translate, h, hall, eq_comm]

/-- A pattern matches a text from its start to its end. -/
inductive Matches : List Char → List Char → Prop where
  | nil : Matches [] []
  /-- A percent sign takes any characters. -/
  | run {p s : List Char} (taken : List Char) (h : Matches p s) : Matches ('%' :: p) (taken ++ s)
  /-- An underscore takes a single character. -/
  | one {p s : List Char} (c : Char) (h : Matches p s) : Matches ('_' :: p) (c :: s)
  | escaped {p s : List Char} {c : Char} (special : isSpecial c = true) (h : Matches p s) :
    Matches ('\\' :: c :: p) (c :: s)
  | char {p s : List Char} {c : Char} (ordinary : isSpecial c = false) (h : Matches p s) :
    Matches (c :: p) (c :: s)

theorem matches_nil_iff {s : List Char} : Matches [] s ↔ s = [] := by
  constructor
  · intro h
    cases h
    rfl
  · rintro rfl
    exact .nil

theorem matches_run_iff {p s : List Char} :
    Matches ('%' :: p) s ↔ ∃ taken rest, s = taken ++ rest ∧ Matches p rest := by
  constructor
  · intro h
    cases h with
    | run taken h => exact ⟨taken, _, rfl, h⟩
    | char ordinary => exact absurd ordinary (by decide)
  · rintro ⟨taken, rest, rfl, h⟩
    exact .run taken h

theorem matches_one_iff {p s : List Char} :
    Matches ('_' :: p) s ↔ ∃ c rest, s = c :: rest ∧ Matches p rest := by
  constructor
  · intro h
    cases h with
    | one c h => exact ⟨c, _, rfl, h⟩
    | char ordinary => exact absurd ordinary (by decide)
  · rintro ⟨c, rest, rfl, h⟩
    exact .one c h

theorem matches_escaped_iff {c : Char} (special : isSpecial c = true) {p s : List Char} :
    Matches ('\\' :: c :: p) s ↔ ∃ rest, s = c :: rest ∧ Matches p rest := by
  constructor
  · intro h
    cases h with
    | escaped _ h => exact ⟨_, rfl, h⟩
    | char ordinary => exact absurd ordinary (by decide)
  · rintro ⟨rest, rfl, h⟩
    exact .escaped special h

theorem matches_char_iff {c : Char} (ordinary : isSpecial c = false) {p s : List Char} :
    Matches (c :: p) s ↔ ∃ rest, s = c :: rest ∧ Matches p rest := by
  constructor
  · intro h
    cases h with
    | char _ h => exact ⟨_, rfl, h⟩
    | run | one | escaped => exact absurd ordinary (by decide)
  · rintro ⟨rest, rfl, h⟩
    exact .char ordinary h

/-- A sequence of tokens matches what its parts fit. -/
theorem matches_spell_iff {ts : List Token} {s : List Char} :
    Matches (spell ts) s ↔ Wildcard.fits (ts.map Token.part) s = true := by
  induction ts generalizing s with
  | nil => rw [spell_nil, matches_nil_iff, List.map_nil, Wildcard.fits_nil]
  | cons t ts ih =>
    rw [spell_cons, List.map_cons]
    cases t with
    | escaped c special => simp only [Token.text, List.cons_append, List.nil_append, Token.part,
        matches_escaped_iff special, Wildcard.fits_char_cons, ih]
    | run => simp only [Token.text, List.cons_append, List.nil_append, Token.part,
        matches_run_iff, Wildcard.fits_run_cons, ih]
    | one => simp only [Token.text, List.cons_append, List.nil_append, Token.part,
        matches_one_iff, Wildcard.fits_one_cons, ih]
    | char c ordinary => simp only [Token.text, List.cons_append, List.nil_append, Token.part,
        matches_char_iff ordinary, Wildcard.fits_char_cons, ih]

/-- Where a pattern holds no wildcard of the backend, the backend reads the image of a token as what
the token stands for. -/
theorem part_image {t : Token} (h : ∀ c ∈ t.text, Wildcard.isSpecial c = false) :
    Wildcard.part t.image = t.part := by
  have hplain {c : Char} (hc : c ∈ t.text) : Wildcard.part c = .char c := by
    have hspecial := h c hc
    simp only [Wildcard.isSpecial, Bool.or_eq_false_iff, beq_eq_false_iff_ne] at hspecial
    rw [Wildcard.part, if_neg hspecial.1, if_neg hspecial.2]
  cases t with
  | escaped c special => exact hplain (by simp [Token.text, Token.image])
  | run => rfl
  | one => rfl
  | char c ordinary => exact hplain (by simp [Token.text, Token.image])

/-- There the translation matches what the pattern matches. -/
theorem matches_translation_iff {ts : List Token}
    (h : ∀ c ∈ spell ts, Wildcard.isSpecial c = false) (s : List Char) :
    Wildcard.Matches (ts.map Token.image) s ↔ Matches (spell ts) s := by
  have hparts : (ts.map Token.image).map Wildcard.part = ts.map Token.part := by
    rw [List.map_map]
    refine List.map_congr_left fun t ht => part_image fun c hc => h c ?_
    exact List.mem_flatMap.2 ⟨t, ht, hc⟩
  rw [Wildcard.Matches, hparts, matches_spell_iff]

theorem StopsAt.append {q : List Char} {position : Nat} (h : StopsAt q position)
    (ts : List Token) : StopsAt (spell ts ++ q) ((spell ts).length + position) := by
  obtain ⟨us, rest, rfl, hstuck, rfl⟩ := h
  exact ⟨ts ++ us, rest, by simp, hstuck, by simp⟩

/-- A pattern is translated exactly when it is a sequence of tokens, and then token by token. The
error tells the position of the first backslash that escapes nothing. A pattern that is translated
can be put in front of any other: the translations stand one behind the other, and an error has its
position behind the whole pattern. When it holds none of the backend's wildcards, its translation
matches the same texts as a wildcard pattern. -/
theorem translate_by_tokens (p : String) :
    (∀ t, translate p = .ok t ↔
      ∃ ts, p.toList = spell ts ∧ t = String.ofList (ts.map Token.image)) ∧
    (∀ e, translate p = .error e ↔
      ∃ position, StopsAt p.toList position ∧ e = .escapeSequence p position) ∧
    ∀ t, translate p = .ok t →
      (∀ q u, translate q = .ok u → translate (p ++ q) = .ok (t ++ u)) ∧
      (∀ q position, translate q = .error (.escapeSequence q position) →
        translate (p ++ q) = .error (.escapeSequence (p ++ q) (p.length + position))) ∧
      ('*' ∉ p.toList → '?' ∉ p.toList →
        ∀ s, Wildcard.Matches t.toList s ↔ Matches p.toList s) := by
  refine ⟨fun t => translate_eq_ok_iff, fun e => translate_eq_error_iff, fun t ht => ?_⟩
  obtain ⟨ts, hp, rfl⟩ := translate_eq_ok_iff.1 ht
  refine ⟨fun q u hu => ?_, fun q position hq => ?_, fun hrun hone s => ?_⟩
  · obtain ⟨us, hq, rfl⟩ := translate_eq_ok_iff.1 hu
    exact translate_eq_ok_iff.2 ⟨ts ++ us, by simp [hp, hq], by simp⟩
  · obtain ⟨n, hstops, heq⟩ := translate_eq_error_iff.1 hq
    cases heq
    have hlength : p.length = (spell ts).length := by rw [← String.length_toList, hp]
    refine translate_eq_error_iff.2 ⟨p.length + position, ?_, rfl⟩
    rw [String.toList_append, hp, hlength]
    exact hstops.append ts
  · rw [String.toList_ofList, hp]
    rw [hp] at hrun hone
    exact matches_translation_iff ((Wildcard.forall_isSpecial_iff _).2 ⟨hrun, hone⟩) s

theorem translate_by_tokens_escape_before_run :
    translate "a\\%%" = .ok "a%*" ∧
      translate ("a\\%%" ++ "_\\b") = .error (.escapeSequence "a\\%%_\\b" 5) ∧
      Wildcard.Matches "a%*".toList "a%bc".toList ∧ ¬Matches "a\\%%".toList "abc".toList := by
  obtain ⟨-, -, hpattern⟩ := translate_by_tokens "a\\%%"
  have ht : translate "a\\%%" = .ok "a%*" := rfl
  obtain ⟨-, hbehind, hmatches⟩ := hpattern "a%*" ht
  refine ⟨ht, hbehind "_\\b" 1 rfl, ?_, ?_⟩
  · exact (hmatches (by decide) (by decide) _).2
      (.char rfl (.escaped rfl (.run ['b', 'c'] .nil)))
  · rw [← hmatches (by decide) (by decide)]
    decide

end Like

end Catalog
