import Catalog.Filter.Compile
import Catalog.Filter.Query
import Catalog.Proofs.Outcome
import Catalog.Proofs.Text.Order
import Mathlib.Data.List.Infix

/-!
# What text operators match

The backend matches a text against a wildcard pattern, in which an asterisk stands for any run of
characters, a question mark for a single one, and everything else for itself. A text operator of a
query puts its operand between runs. The operand is escaped for the pattern language of filters,
which has other special characters, so in the wildcard pattern it is read as a pattern again: the
operator takes its operand literally exactly when the operand holds no asterisk and no question
mark.
-/

namespace Catalog

namespace Wildcard

/-- What a character of a wildcard pattern stands for. -/
inductive Part where
  | run
  | one
  | char (c : Char)
  deriving DecidableEq, Repr

/-- How the backend reads a character. -/
def part (c : Char) : Part := if c = '*' then .run else if c = '?' then .one else .char c

/-- The parts match a text from its start to its end. -/
def fits : List Part → List Char → Bool
  | [], cs => cs.isEmpty
  | .run :: ps, cs => cs.tails.any (fits ps)
  | .one :: _, [] => false
  | .one :: ps, _ :: cs => fits ps cs
  | .char _ :: _, [] => false
  | .char c :: ps, d :: cs => c == d && fits ps cs

/-- The pattern matches the whole text. -/
def Matches (pattern s : List Char) : Prop := fits (pattern.map part) s = true

instance (pattern s : List Char) : Decidable (Matches pattern s) :=
  inferInstanceAs (Decidable (fits (pattern.map part) s = true))

variable {ps qs : List Part} {cs : List Char}

@[simp] theorem fits_nil : fits [] cs = true ↔ cs = [] := List.isEmpty_iff

/-- A run takes any first characters. -/
theorem fits_run_cons :
    fits (.run :: ps) cs = true ↔ ∃ xs ys, cs = xs ++ ys ∧ fits ps ys = true := by
  simp only [fits, List.any_eq_true, List.mem_tails]
  constructor
  · rintro ⟨ys, ⟨xs, rfl⟩, hys⟩
    exact ⟨xs, ys, rfl, hys⟩
  · rintro ⟨xs, ys, rfl, hys⟩
    exact ⟨ys, List.suffix_append xs ys, hys⟩

theorem fits_one_cons :
    fits (.one :: ps) cs = true ↔ ∃ c ys, cs = c :: ys ∧ fits ps ys = true := by
  cases cs with
  | nil => simp [fits]
  | cons c cs => simp [fits]

theorem fits_char_cons {c : Char} :
    fits (.char c :: ps) cs = true ↔ ∃ ys, cs = c :: ys ∧ fits ps ys = true := by
  cases cs with
  | nil => simp [fits]
  | cons d cs =>
    rw [fits, Bool.and_eq_true, beq_iff_eq]
    constructor
    · rintro ⟨rfl, hys⟩
      exact ⟨cs, rfl, hys⟩
    · rintro ⟨ys, heq, hys⟩
      obtain ⟨rfl, rfl⟩ := List.cons.inj heq
      exact ⟨rfl, hys⟩

/-- Parts one behind the other match texts one behind the other. -/
theorem fits_append :
    fits (ps ++ qs) cs = true ↔
      ∃ xs ys, cs = xs ++ ys ∧ fits ps xs = true ∧ fits qs ys = true := by
  -- What the first of the parts takes goes to the first of the texts, so one split gives the other.
  induction ps generalizing cs with
  | nil => simp
  | cons p ps ih =>
    cases p with
    | run =>
      simp only [List.cons_append, fits_run_cons, ih]
      constructor
      · rintro ⟨as, _, rfl, xs, ys, rfl, hxs, hys⟩
        exact ⟨as ++ xs, ys, by simp, ⟨as, xs, rfl, hxs⟩, hys⟩
      · rintro ⟨_, ys, rfl, ⟨as, xs, rfl, hxs⟩, hys⟩
        exact ⟨as, xs ++ ys, by simp, xs, ys, rfl, hxs, hys⟩
    | one =>
      simp only [List.cons_append, fits_one_cons, ih]
      constructor
      · rintro ⟨c, _, rfl, xs, ys, rfl, hxs, hys⟩
        exact ⟨c :: xs, ys, rfl, ⟨c, xs, rfl, hxs⟩, hys⟩
      · rintro ⟨_, ys, rfl, ⟨c, xs, rfl, hxs⟩, hys⟩
        exact ⟨c, xs ++ ys, rfl, xs, ys, rfl, hxs, hys⟩
    | char c =>
      simp only [List.cons_append, fits_char_cons, ih]
      constructor
      · rintro ⟨_, rfl, xs, ys, rfl, hxs, hys⟩
        exact ⟨c :: xs, ys, rfl, ⟨xs, rfl, hxs⟩, hys⟩
      · rintro ⟨_, ys, rfl, ⟨xs, rfl, hxs⟩, hys⟩
        exact ⟨xs ++ ys, rfl, xs, ys, rfl, hxs, hys⟩

/-- A run matches every text. -/
theorem fits_run (cs : List Char) : fits [.run] cs = true :=
  fits_run_cons.2 ⟨cs, [], by simp, by simp⟩

/-- Characters match themselves alone. -/
theorem fits_map_char {t : List Char} : fits (t.map .char) cs = true ↔ cs = t := by
  induction t generalizing cs with
  | nil => simp
  | cons c t ih => simp [fits_char_cons, ih]

/-- The character stands for others in a wildcard pattern. -/
def isSpecial (c : Char) : Bool := c == '*' || c == '?'

theorem forall_isSpecial_iff (t : List Char) :
    (∀ c ∈ t, isSpecial c = false) ↔ '*' ∉ t ∧ '?' ∉ t := by
  simp only [isSpecial, Bool.or_eq_false_iff, beq_eq_false_iff_ne]
  constructor
  · intro h
    exact ⟨fun hm => (h _ hm).1 rfl, fun hm => (h _ hm).2 rfl⟩
  · rintro ⟨hrun, hone⟩ c hc
    exact ⟨fun he => hrun (he ▸ hc), fun he => hone (he ▸ hc)⟩

theorem map_part_eq {t : List Char} (h : ∀ c ∈ t, isSpecial c = false) :
    t.map part = t.map .char := by
  refine List.map_congr_left fun c hc => ?_
  have hspecial := h c hc
  simp only [isSpecial, Bool.or_eq_false_iff, beq_eq_false_iff_ne] at hspecial
  rw [part, if_neg hspecial.1, if_neg hspecial.2]

/-- The text with another character in place of the special ones. -/
def plain (t : List Char) : List Char := t.map fun c => if isSpecial c then 'a' else c

theorem length_plain (t : List Char) : (plain t).length = t.length := List.length_map _

/-- Read as a pattern, a text matches one that has other characters for its special ones. -/
theorem matches_plain (t : List Char) : Matches t (plain t) := by
  induction t with
  | nil => rfl
  | cons c t ih =>
    rw [plain, List.map_cons, ← plain, Matches, List.map_cons, part]
    split
    · exact fits_run_cons.2 ⟨[_], plain t, rfl, ih⟩
    · next hrun =>
      split
      · exact fits_one_cons.2 ⟨_, plain t, rfl, ih⟩
      · next hone =>
        have hc : isSpecial c = false := by simp [isSpecial, hrun, hone]
        rw [hc, if_neg Bool.false_ne_true]
        exact fits_char_cons.2 ⟨plain t, rfl, ih⟩

theorem plain_eq_self_iff (t : List Char) : plain t = t ↔ ∀ c ∈ t, isSpecial c = false := by
  induction t with
  | nil => simp [plain]
  | cons c t ih =>
    rw [plain, List.map_cons, ← plain, List.cons.injEq, ih, List.forall_mem_cons]
    refine and_congr_left' ⟨fun h => ?_, fun h => by rw [h, if_neg Bool.false_ne_true]⟩
    cases hc : isSpecial c with
    | false => rfl
    | true =>
      rw [hc, if_pos rfl] at h
      rw [← h] at hc
      exact absurd hc (by decide)

/-- Read as a pattern, a text without special characters matches itself alone. -/
theorem matches_iff_of_plain {t : List Char} (h : ∀ c ∈ t, isSpecial c = false) (s : List Char) :
    Matches t s ↔ s = t := by
  rw [Matches, map_part_eq h, fits_map_char]

end Wildcard

namespace Like

/-- A pattern behind one that translates is translated on its own. -/
theorem translateFrom_append {p t : List Char} {n : Nat} (h : translateFrom n p = .ok t)
    (q : List Char) :
    translateFrom n (p ++ q) = (translateFrom (n + p.length) q).map (t ++ ·) := by
  fun_induction translateFrom n p generalizing t with
  | case1 n =>
    cases h
    cases hq : translateFrom n q with
    | error e => simp [hq, Except.map]
    | ok u => simp [hq, Except.map]
  | case2 n => cases h
  | case3 n c rest hc ih =>
    obtain ⟨u, hu, rfl⟩ := Outcome.map_eq_ok_iff.1 h
    have hplace : n + (rest.length + 1 + 1) = n + 2 + rest.length := by omega
    rw [List.cons_append, List.cons_append, translateFrom, if_pos hc, ih hu, Outcome.map_map,
      List.length_cons, List.length_cons, hplace]
    rfl
  | case4 n c rest hc => cases h
  | case5 n c rest hend hescape ih =>
    obtain ⟨u, hu, rfl⟩ := Outcome.map_eq_ok_iff.1 h
    have hc : c ≠ '\\' := by
      rintro rfl
      cases rest with
      | nil => exact hend rfl rfl
      | cons d rest => exact hescape d rest rfl rfl
    have hplace : n + (rest.length + 1) = n + 1 + rest.length := by omega
    rw [List.cons_append, translateFrom.eq_4 _ _ _ (by simp [hc]) (by simp [hc]), ih hu,
      Outcome.map_map, List.length_cons, hplace]
    rfl

end Like

namespace Query

/-- The operators of a query that look for a text. -/
inductive TextOperator where
  | startsWith
  | endsWith
  | contains
  deriving DecidableEq, Repr

namespace TextOperator

/-- The written name of an operator. -/
def name : TextOperator → String
  | startsWith => "startsWith"
  | endsWith => "endsWith"
  | contains => "contains"

/-- What an operator allows on either side of its operand. -/
def Admits : TextOperator → List Char → List Char → Prop
  | startsWith, before, _ => before = []
  | endsWith, _, after => after = []
  | contains, _, _ => True

/-- The text starts with the operand, ends with it or contains it. -/
def Holds (operand s : List Char) : TextOperator → Prop
  | startsWith => operand <+: s
  | endsWith => operand <:+ s
  | contains => operand <:+: s

instance (op : TextOperator) (operand s : List Char) : Decidable (op.Holds operand s) :=
  match op with
  | startsWith => inferInstanceAs (Decidable (operand <+: s))
  | endsWith => inferInstanceAs (Decidable (operand <:+ s))
  | contains => inferInstanceAs (Decidable (operand <:+: s))

theorem holds_iff (op : TextOperator) (operand s : List Char) :
    op.Holds operand s ↔
      ∃ before after, s = before ++ operand ++ after ∧ op.Admits before after := by
  cases op with
  | startsWith =>
    simp only [Holds, Admits]
    constructor
    · rintro ⟨after, rfl⟩
      exact ⟨[], after, rfl, rfl⟩
    · rintro ⟨_, after, rfl, rfl⟩
      exact ⟨after, rfl⟩
  | endsWith =>
    simp only [Holds, Admits]
    constructor
    · rintro ⟨before, rfl⟩
      exact ⟨before, [], by simp, rfl⟩
    · rintro ⟨before, _, rfl, rfl⟩
      exact ⟨before, by simp⟩
  | contains =>
    simp only [Holds, Admits, and_true]
    constructor
    · rintro ⟨before, after, rfl⟩
      exact ⟨before, after, rfl⟩
    · rintro ⟨before, after, rfl⟩
      exact ⟨before, after, rfl⟩

/-- An operator holds of a text no longer than its operand only when they are the same. -/
theorem eq_of_holds {op : TextOperator} {operand s : List Char} (h : op.Holds operand s)
    (hlen : s.length = operand.length) : s = operand := by
  cases op with
  | startsWith => exact (List.IsPrefix.eq_of_length h hlen.symm).symm
  | endsWith => exact (List.IsSuffix.eq_of_length h hlen.symm).symm
  | contains => exact (List.IsInfix.eq_of_length h hlen.symm).symm

/-- The operand between the runs that its operator puts around it. -/
def pattern (operand : List Char) : TextOperator → List Char
  | startsWith => operand ++ ['*']
  | endsWith => '*' :: operand
  | contains => '*' :: (operand ++ ['*'])

/-- The pattern matches what the operand, read as a pattern, matches between the texts that the
operator allows. -/
theorem matches_pattern_iff (op : TextOperator) (operand s : List Char) :
    Wildcard.Matches (op.pattern operand) s ↔
      ∃ before inside after, s = before ++ inside ++ after ∧ Wildcard.Matches operand inside ∧
        op.Admits before after := by
  cases op with
  | startsWith =>
    rw [Wildcard.Matches, pattern, List.map_append, Wildcard.fits_append]
    constructor
    · rintro ⟨inside, after, rfl, hinside, -⟩
      exact ⟨[], inside, after, rfl, hinside, rfl⟩
    · rintro ⟨_, inside, after, rfl, hinside, rfl⟩
      exact ⟨inside, after, rfl, hinside, Wildcard.fits_run after⟩
  | endsWith =>
    rw [Wildcard.Matches, pattern, List.map_cons]
    refine Wildcard.fits_run_cons.trans ?_
    constructor
    · rintro ⟨before, inside, rfl, hinside⟩
      exact ⟨before, inside, [], by simp, hinside, rfl⟩
    · rintro ⟨before, inside, _, rfl, hinside, rfl⟩
      exact ⟨before, inside, by simp, hinside⟩
  | contains =>
    rw [Wildcard.Matches, pattern, List.map_cons, List.map_append]
    refine Wildcard.fits_run_cons.trans ?_
    constructor
    · rintro ⟨before, _, rfl, hrest⟩
      obtain ⟨inside, after, rfl, hinside, -⟩ := Wildcard.fits_append.1 hrest
      exact ⟨before, inside, after, by simp, hinside, trivial⟩
    · rintro ⟨before, inside, after, rfl, hinside, -⟩
      exact ⟨before, inside ++ after, by simp,
        Wildcard.fits_append.2 ⟨inside, after, rfl, hinside, Wildcard.fits_run after⟩⟩

/-- It matches what the operator holds of exactly when the operand has no special characters. -/
theorem matches_iff_holds_iff (op : TextOperator) (operand : List Char) :
    (∀ s, Wildcard.Matches (op.pattern operand) s ↔ op.Holds operand s) ↔
      ∀ c ∈ operand, Wildcard.isSpecial c = false := by
  constructor
  · intro h
    -- The operand with other characters for its special ones is as long, so it has to be the same.
    rw [← Wildcard.plain_eq_self_iff]
    refine eq_of_holds ((h _).1 ?_) (Wildcard.length_plain operand)
    refine (matches_pattern_iff op operand _).2
      ⟨[], Wildcard.plain operand, [], by simp, Wildcard.matches_plain operand, ?_⟩
    cases op with
    | startsWith => rfl
    | endsWith => rfl
    | contains => trivial
  · intro h s
    simp only [matches_pattern_iff, holds_iff, Wildcard.matches_iff_of_plain h]
    constructor
    · rintro ⟨before, _, after, rfl, rfl, hadmits⟩
      exact ⟨before, after, rfl, hadmits⟩
    · rintro ⟨before, after, rfl, hadmits⟩
      exact ⟨before, operand, after, rfl, rfl, hadmits⟩

/-- The pattern of a filter that an operator asks for. -/
def likePattern (operand : String) : TextOperator → String
  | startsWith => Like.escape operand ++ "%"
  | endsWith => "%" ++ Like.escape operand
  | contains => "%" ++ Like.escape operand ++ "%"

theorem lowerEntry_text (op : TextOperator) (property operand : String) :
    lowerEntry property op.name (.text operand) =
      .ok (.like property (op.likePattern operand)) := by
  cases op with
  | startsWith => rfl
  | endsWith => rfl
  | contains => rfl

/-- A query with one text operator asks for a pattern of its property. -/
theorem lower_eq (op : TextOperator) (property operand : String) :
    lower (.object [(property, .object [(op.name, .text operand)])]) =
      .ok (some (.like property (op.likePattern operand))) := by
  simp only [lower, lowerProperty, Text.sortEntries_singleton, List.mapM_cons, List.mapM_nil,
    lowerEntry_text]
  rfl

/-- The pattern is translated to runs around the operand, which is left as it is. -/
theorem translate_likePattern (op : TextOperator) (operand : String) :
    Like.translate (op.likePattern operand) = .ok (String.ofList (op.pattern operand.toList)) := by
  have hoperand (n : Nat) := Like.translateFrom_escapeChars n operand.toList
  have hend (n : Nat) := Like.translateFrom_append (hoperand n) ['%']
  have hrun (q : List Char) : Like.translateFrom 0 (['%'] ++ q) =
      (Like.translateFrom 1 q).map (['*'] ++ ·) := Like.translateFrom_append rfl q
  have hpercent : "%".toList = ['%'] := rfl
  have hescape : (Like.escape operand).toList = Like.escapeChars operand.toList :=
    String.toList_ofList
  have hchars : Like.translateFrom 0 (op.likePattern operand).toList =
      .ok (op.pattern operand.toList) := by
    cases op with
    | startsWith =>
      rw [likePattern, String.toList_append, hescape, hpercent, hend]
      rfl
    | endsWith =>
      rw [likePattern, String.toList_append, hescape, hpercent, hrun, hoperand]
      rfl
    | contains =>
      rw [likePattern, String.toList_append, String.toList_append, hescape, hpercent,
        List.append_assoc, hrun, hend]
      rfl
  rw [Like.translate, hchars]

/-- The filter of a text operator is compiled to a wildcard pattern. A text matches it when the
operand, read as a pattern itself, matches between what the operator allows on its sides. That is
what the operator says of the text exactly when the operand has no special characters. -/
theorem compile_textOperator (o : FilterOptions) (property operand : String) (op : TextOperator) :
    ∃ f pattern, lower (.object [(property, .object [(op.name, .text operand)])]) = .ok (some f) ∧
      f.compile o = .ok (.wildcard (o.mapping.resolve property) pattern o.caseInsensitive) ∧
      (∀ s, Wildcard.Matches pattern.toList s ↔
        ∃ before inside after, s = before ++ inside ++ after ∧
          Wildcard.Matches operand.toList inside ∧ op.Admits before after) ∧
      ((∀ s, Wildcard.Matches pattern.toList s ↔ op.Holds operand.toList s) ↔
        '*' ∉ operand.toList ∧ '?' ∉ operand.toList) := by
  refine ⟨_, String.ofList (op.pattern operand.toList), lower_eq op property operand, ?_, ?_, ?_⟩
  · rw [Filter.compile, translate_likePattern]
    rfl
  · rw [String.toList_ofList]
    exact matches_pattern_iff op operand.toList
  · rw [String.toList_ofList, matches_iff_holds_iff, Wildcard.forall_isSpecial_iff]

/-- Every text operator would match what it says of its operand, whatever characters that has. -/
def TakesOperandsLiterally : Prop :=
  ∀ (o : FilterOptions) (property operand : String) (op : TextOperator) (f : Filter)
    (field pattern : String) (caseInsensitive : Bool),
      lower (.object [(property, .object [(op.name, .text operand)])]) = .ok (some f) →
        f.compile o = .ok (.wildcard field pattern caseInsensitive) →
          ∀ s, Wildcard.Matches pattern.toList s ↔ op.Holds operand.toList s

/-- An operand that is an asterisk is compiled to two runs, which match the empty text. -/
theorem not_takesOperandsLiterally : ¬TakesOperandsLiterally := by
  intro h
  let o : FilterOptions := ⟨.empty, false⟩
  have hlower : lower (.object [("a", .object [("startsWith", .text "*")])]) =
      .ok (some (.like "a" "*%")) := lower_eq .startsWith "a" "*"
  have hcompile : (Filter.like "a" "*%").compile o =
      .ok (.wildcard (o.mapping.resolve "a") "**" false) := rfl
  have hempty := (h o "a" "*" .startsWith _ _ _ _ hlower hcompile []).1 (by decide)
  exact absurd hempty (by decide)

end TextOperator

end Query

end Catalog
