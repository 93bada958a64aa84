import Catalog.Script.Normal

/-!
# The pattern of a chain

What the search for a place to mend looks for, said without the search: `ctx._source`, any number of
steps, and a point with an identifier that colon groups follow. The search finds a place exactly
where this pattern fits. So a pass mends something exactly when the pattern fits somewhere in code,
and each pass that does lowers the number of colons there.
-/

namespace Catalog.Script

open Lexeme

/-- A colon, and behind it one or more letters, digits and underscores. -/
def IsColonGroup (group : List Char) : Prop :=
  ∃ c cs, group = ':' :: c :: cs ∧ ∀ d ∈ c :: cs, isNameRest d = true

/-- An identifier, and behind it one or more colon groups. -/
def IsColonName (name : List Char) : Prop :=
  ∃ c cs groups, name = c :: cs ++ List.flatten groups ∧
    isNameStart c = true ∧ (∀ d ∈ cs, isNameRest d = true) ∧
    groups ≠ [] ∧ ∀ g ∈ groups, IsColonGroup g

/-- Steps of a chain, each a point and an identifier or a pair of brackets that holds no bracket. -/
inductive IsSteps : List Lexeme → Prop
  | nil : IsSteps []
  | name {c : Char} {cs : List Char} {steps : List Lexeme} (hc : isNameStart c = true)
      (hcs : ∀ d ∈ cs, isNameRest d = true) (hsteps : IsSteps steps) :
      IsSteps (code '.' :: code c :: cs.map code ++ steps)
  | item {inside steps : List Lexeme} (hopen : code '[' ∉ inside) (hclose : code ']' ∉ inside)
      (hsteps : IsSteps steps) : IsSteps (code '[' :: (inside ++ [code ']']) ++ steps)

/-- The pattern fits where the lexemes start. -/
def MendableAt (ls : List Lexeme) : Prop :=
  ∃ steps name after, ls = chainRoot ++ steps ++ code '.' :: name.map code ++ after ∧
    IsSteps steps ∧ IsColonName name

/-- The pattern fits somewhere in code. -/
def Mendable (ls : List Lexeme) : Prop := ∃ before rest, ls = before ++ rest ∧ MendableAt rest

/-! ## Names with colon groups -/

theorem isNameRest_of_isNameStart {c : Char} (h : isNameStart c = true) : isNameRest c = true := by
  simp only [isNameStart, Bool.or_eq_true, beq_iff_eq] at h
  rcases h with h | rfl
  · simp [isNameRest, Char.isAlphanum, h]
  · decide

/-- A name with colon groups is written with name characters and colons. -/
theorem IsColonName.isNameRest_or {name : List Char} (h : IsColonName name) {d : Char}
    (hd : d ∈ name) : isNameRest d = true ∨ d = ':' := by
  obtain ⟨c, cs, groups, rfl, hc, hcs, -, hgroups⟩ := h
  rcases List.mem_append.1 hd with hd | hd
  · rcases List.mem_cons.1 hd with rfl | hd
    · exact Or.inl (isNameRest_of_isNameStart hc)
    · exact Or.inl (hcs d hd)
  · obtain ⟨g, hg, hd⟩ := List.mem_flatten.1 hd
    obtain ⟨e, es, rfl, hes⟩ := hgroups g hg
    rcases List.mem_cons.1 hd with rfl | hd
    · exact Or.inr rfl
    · exact Or.inl (hes d hd)

/-- The first colon of a name stands right behind a name character. -/
theorem IsColonName.exists_behind {name : List Char} (h : IsColonName name) :
    ∃ start c rest, name = start ++ c :: ':' :: rest ∧ isNameRest c = true := by
  obtain ⟨c, cs, groups, rfl, hc, hcs, hne, hgroups⟩ := h
  obtain ⟨g, groups, rfl⟩ := List.exists_cons_of_ne_nil hne
  obtain ⟨e, es, rfl, -⟩ := hgroups g List.mem_cons_self
  have hrest : ∀ d ∈ c :: cs, isNameRest d = true :=
    List.forall_mem_cons.2 ⟨isNameRest_of_isNameStart hc, hcs⟩
  obtain ⟨start, d, hs⟩ := (List.eq_nil_or_concat (c :: cs)).resolve_left (by simp)
  rw [List.concat_eq_append] at hs
  refine ⟨start, d, e :: es ++ groups.flatten, ?_, hrest d (by rw [hs]; simp)⟩
  rw [hs, List.append_assoc]
  rfl

/-! ## Runs of characters -/

/-- A run of code characters of a class holds only such characters. -/
theorem mem_spanCode {p : Char → Bool} {ls : List Lexeme} {c : Char}
    (h : c ∈ (spanCode p ls).1) : p c = true := by
  fun_induction spanCode p ls with
  | case1 d rest hd run after hr ih =>
    simp only [hr] at ih
    rcases List.mem_cons.1 h with rfl | hm
    · exact hd
    · exact ih hm
  | case2 => simp at h
  | case3 => simp at h

/-- A run ends where a character of another class follows. -/
theorem spanCode_map_append {p : Char → Bool} {cs : List Char} (h : ∀ c ∈ cs, p c = true)
    {rest : List Lexeme} (hrest : spanCode p rest = ([], rest)) :
    spanCode p (cs.map .code ++ rest) = (cs, rest) := by
  induction cs with
  | nil => exact hrest
  | cons c cs ih =>
    obtain ⟨hc, hcs⟩ := List.forall_mem_cons.1 h
    rw [List.map_cons, List.cons_append, spanCode, if_pos hc, ih hcs]

theorem spanCode_cons_of_false {p : Char → Bool} {c : Char} (hc : p c = false) (rest : List Lexeme) :
    spanCode p (code c :: rest) = ([], code c :: rest) := by
  rw [spanCode, if_neg (by simp [hc])]

/-- A run is empty only where a character of another class follows. -/
theorem isEmpty_spanCode_cons {p : Char → Bool} {c : Char} (hc : p c = true) (rest : List Lexeme) :
    (spanCode p (code c :: rest)).1.isEmpty = false := by
  rw [spanCode, if_pos hc]
  rfl

/-- The colon groups that are found are colon groups. -/
theorem exists_groups_of_colonGroups (ls : List Lexeme) :
    ∃ groups, (colonGroups ls).1 = List.flatten groups ∧ ∀ g ∈ groups, IsColonGroup g := by
  fun_induction colonGroups ls with
  | case1 rest h => exact ⟨[], rfl, by simp⟩
  | case2 rest h more ih =>
    obtain ⟨groups, hmore, hgroups⟩ := ih
    obtain ⟨c, cs, hrun⟩ := List.exists_cons_of_ne_nil (l := (spanCode isNameRest rest).1)
      (by simpa using h)
    have hgroup : IsColonGroup (':' :: (spanCode isNameRest rest).1) :=
      ⟨c, cs, by rw [hrun], fun d hd => mem_spanCode (hrun ▸ hd)⟩
    exact ⟨(':' :: (spanCode isNameRest rest).1) :: groups, by rw [hmore]; rfl,
      List.forall_mem_cons.2 ⟨hgroup, hgroups⟩⟩
  | case3 ls h => exact ⟨[], rfl, by simp⟩

/-- A colon and a word are found as a colon group. -/
theorem isEmpty_colonGroups_cons {c : Char} (hc : isNameRest c = true) (rest : List Lexeme) :
    (colonGroups (code ':' :: code c :: rest)).1.isEmpty = false := by
  rw [colonGroups, if_neg (by rw [isEmpty_spanCode_cons hc]; decide)]
  rfl

theorem colonGroups_cons_of_ne {c : Char} (hc : c ≠ ':') (rest : List Lexeme) :
    colonGroups (code c :: rest) = ([], code c :: rest) := by
  rw [colonGroups.eq_2]
  rintro rest' h
  exact hc (by simpa using congrArg List.head? h)

/-- What is found inside brackets holds no bracket. -/
theorem exists_inside_of_bracketBody? {ls : List Lexeme} {b : List Lexeme × List Lexeme}
    (h : bracketBody? ls = some b) :
    ∃ inside, b.1 = inside ++ [code ']'] ∧ code '[' ∉ inside ∧ code ']' ∉ inside := by
  fun_induction bracketBody? ls generalizing b with
  | case1 => simp at h
  | case2 rest => cases h; exact ⟨[], rfl, by simp, by simp⟩
  | case3 => simp at h
  | case4 l rest hclose hopen ih =>
    obtain ⟨⟨body, after⟩, hb, rfl⟩ := Option.map_eq_some_iff.1 h
    obtain ⟨inside, rfl, ho, hc⟩ := ih hb
    refine ⟨l :: inside, rfl, ?_, ?_⟩
    · exact List.not_mem_cons_of_ne_of_not_mem (fun he => hopen he.symm) ho
    · exact List.not_mem_cons_of_ne_of_not_mem (fun he => hclose he.symm) hc

/-- Brackets end at the first closing one. -/
theorem bracketBody?_append {inside : List Lexeme} (hopen : code '[' ∉ inside)
    (hclose : code ']' ∉ inside) (rest : List Lexeme) :
    bracketBody? (inside ++ code ']' :: rest) = some (inside ++ [code ']'], rest) := by
  induction inside with
  | nil => rfl
  | cons l inside ih =>
    have ho := List.ne_of_not_mem_cons hopen
    have hc := List.ne_of_not_mem_cons hclose
    rw [List.cons_append, bracketBody?.eq_4 _ _ hc.symm ho.symm,
      ih (List.not_mem_of_not_mem_cons hopen) (List.not_mem_of_not_mem_cons hclose)]
    rfl

/-! ## The search finds what fits -/

/-- What the search finds is steps and a name with colon groups. -/
theorem fits_of_followSteps? {ls : List Lexeme} {m : Mend} (h : followSteps? ls = some m) :
    IsSteps m.steps ∧ IsColonName m.name := by
  fun_induction followSteps? ls generalizing m with
  | case1 c rest hc run groups hg =>
    rename_i ih
    obtain ⟨m', hm, rfl⟩ := Option.map_eq_some_iff.1 h
    obtain ⟨hsteps, hname⟩ := ih hm
    exact ⟨.name hc (fun d hd => mem_spanCode hd) hsteps, hname⟩
  | case2 c rest hc run groups =>
    rename_i hne
    cases h
    obtain ⟨parts, hparts, hall⟩ := exists_groups_of_colonGroups run.2
    refine ⟨.nil, c, run.1, parts, by rw [← hparts], hc, fun d hd => mem_spanCode hd, ?_, hall⟩
    rintro rfl
    have hnil : groups.1 = [] := hparts
    exact hne (by rw [hnil]; rfl)
  | case3 => simp at h
  | case4 rest body after hb ih =>
    obtain ⟨m', hm, rfl⟩ := Option.map_eq_some_iff.1 h
    obtain ⟨hsteps, hname⟩ := ih hm
    obtain ⟨inside, rfl, hopen, hclose⟩ := exists_inside_of_bracketBody? hb
    exact ⟨.item hopen hclose hsteps, hname⟩
  | case5 => simp at h
  | case6 => simp at h

/-- Behind an identifier that is a step comes a point or an opening bracket. -/
theorem IsSteps.exists_head {steps : List Lexeme} (h : IsSteps steps) (tail : List Lexeme) :
    ∃ c rest, steps ++ code '.' :: tail = code c :: rest ∧ (c = '.' ∨ c = '[') := by
  cases h with
  | nil => exact ⟨'.', _, rfl, Or.inl rfl⟩
  | name => exact ⟨'.', _, rfl, Or.inl rfl⟩
  | item => exact ⟨'[', _, rfl, Or.inr rfl⟩

/-- The search goes along the steps and finds a name behind them. Its groups may be longer, where
more word characters or colon groups follow. -/
theorem isSome_followSteps? {steps : List Lexeme} (hsteps : IsSteps steps) {name : List Char}
    (hname : IsColonName name) (after : List Lexeme) :
    (followSteps? (steps ++ code '.' :: (name.map code ++ after))).isSome = true := by
  induction hsteps with
  | nil =>
    obtain ⟨c, cs, groups, rfl, hc, hcs, hne, hgroups⟩ := hname
    obtain ⟨g, groups, rfl⟩ := List.exists_cons_of_ne_nil hne
    obtain ⟨d, g, rfl, hchars⟩ := hgroups g List.mem_cons_self
    simp only [List.nil_append, List.map_append, List.map_cons, List.cons_append,
      List.flatten_cons, List.append_assoc]
    have hspan (rest : List Lexeme) :
        spanCode isNameRest (cs.map code ++ code ':' :: rest) = (cs, code ':' :: rest) :=
      spanCode_map_append hcs (spanCode_cons_of_false (by decide) rest)
    rw [followSteps?, if_pos hc]
    simp only [hspan, isEmpty_colonGroups_cons (hchars d List.mem_cons_self)]
    rfl
  | @name c cs steps hc hcs hsteps ih =>
    obtain ⟨d, rest, hrest, hd⟩ := hsteps.exists_head (name.map code ++ after)
    have hspan : spanCode isNameRest (code d :: rest) = ([], code d :: rest) :=
      spanCode_cons_of_false (by rcases hd with rfl | rfl <;> decide) _
    have hgroups : colonGroups (code d :: rest) = ([], code d :: rest) :=
      colonGroups_cons_of_ne (by rcases hd with rfl | rfl <;> decide) _
    rw [hrest] at ih
    simp only [List.cons_append, List.append_assoc]
    rw [hrest, followSteps?, if_pos hc]
    simp only [spanCode_map_append hcs hspan, hgroups]
    simpa using ih
  | @item inside steps hopen hclose hsteps ih =>
    simp only [List.cons_append, List.append_assoc, List.nil_append]
    rw [followSteps?]
    split
    · next body rest hb =>
      rw [bracketBody?_append hopen hclose] at hb
      cases hb
      simpa using ih
    · next hb =>
      rw [bracketBody?_append hopen hclose] at hb
      simp at hb

theorem fits_of_mendAt? {ls : List Lexeme} {m : Mend} (h : mendAt? ls = some m) :
    IsSteps m.steps ∧ IsColonName m.name := by
  unfold mendAt? at h
  split at h
  · exact fits_of_followSteps? h
  · simp at h

/-- The search finds a place exactly where the pattern fits. -/
theorem isSome_mendAt?_iff (ls : List Lexeme) : (mendAt? ls).isSome = true ↔ MendableAt ls := by
  constructor
  · intro h
    obtain ⟨m, hm⟩ := Option.isSome_iff_exists.1 h
    exact ⟨m.steps, m.name, m.after, eq_append_of_mendAt? hm, fits_of_mendAt? hm⟩
  · rintro ⟨steps, name, after, rfl, hsteps, hname⟩
    have hls : chainRoot ++ steps ++ code '.' :: name.map code ++ after =
        chainRoot ++ (steps ++ code '.' :: (name.map code ++ after)) := by
      simp only [List.append_assoc, List.cons_append]
    rw [hls, mendAt?, List.take_left, List.drop_left, if_pos rfl]
    exact isSome_followSteps? hsteps hname after

theorem not_mendable_nil : ¬ Mendable [] := by
  rintro ⟨before, rest, h, steps, name, after, rfl, -, -⟩
  simp at h

theorem mendable_cons_iff (l : Lexeme) (ls : List Lexeme) :
    Mendable (l :: ls) ↔ MendableAt (l :: ls) ∨ Mendable ls := by
  constructor
  · rintro ⟨before, rest, h, hrest⟩
    cases before with
    | nil =>
      rw [List.nil_append] at h
      exact Or.inl (h ▸ hrest)
    | cons b before =>
      rw [List.cons_append, List.cons.injEq] at h
      exact Or.inr ⟨before, rest, h.2, hrest⟩
  · rintro (h | ⟨before, rest, rfl, hrest⟩)
    · exact ⟨[], _, rfl, h⟩
    · exact ⟨l :: before, rest, rfl, hrest⟩

/-- A pass lowers the number of colons in code exactly when the pattern fits somewhere. -/
theorem colons_mendPass_lt_iff (ls : List Lexeme) :
    colons (mendPass ls) < colons ls ↔ Mendable ls := by
  fun_induction mendPass ls with
  | case1 => simp [not_mendable_nil]
  | case2 l rest m h ih =>
    have hm : Mendable (l :: rest) :=
      (mendable_cons_iff l rest).2 (Or.inl ((isSome_mendAt?_iff _).1 (by rw [h]; rfl)))
    refine iff_of_true ?_ hm
    have hle : colons (mendPass m.after) ≤ colons m.after := by
      rcases mendPass_eq_or_colons_lt m.after with he | hlt
      · exact Nat.le_of_eq (congrArg colons he)
      · exact Nat.le_of_lt hlt
    have hlt := colons_mend h
    rw [colons_append]
    omega
  | case3 l rest h ih =>
    have hnone : ¬ MendableAt (l :: rest) := by
      rw [← isSome_mendAt?_iff, h]
      simp
    have hs (ms : List Lexeme) : colons (l :: ms) = colons [l] + colons ms := colons_append [l] ms
    rw [mendable_cons_iff, ← ih, hs, hs rest]
    simp [hnone]

end Catalog.Script
