import Catalog.Proofs.Filter.Meaning
import Catalog.Proofs.Outcome
import Mathlib.Logic.Relation

/-!
# Search clauses mean what filters mean

A filter that is compiled gives a clause that the backend evaluates on every document, with the
truth of the filter. The clause keeps the order of the children of a node, but the order does not
count: a filter whose children were exchanged somewhere compiles as well, and to the same truth.
-/

namespace Catalog

namespace Search

theorem boundOfName?_name (b : Bound) : boundOfName? b.name = some b := by
  cases b <;> rfl

theorem relationOfName?_name (r : Relation) : relationOfName? r.name = some r := by
  cases r <;> rfl

variable {δ : Type} (i : Interpretation δ) (x : δ)

/-- A range holds within all of its bounds. -/
theorem evaluate_range (field : String) (bounds : List (Bound × Json)) :
    evaluate i x (Clause.range field bounds).toJson =
      some (bounds.all fun bound => i.inBound field bound.1 bound.2 x) := by
  have hrange : evaluate i x (Clause.range field bounds).toJson =
      ((bounds.map fun bound => (bound.1.name, bound.2)).mapM (evaluateBound i x field)).bind
        fun truths => some (truths.all id) := rfl
  have hbounds : (bounds.map fun bound => (bound.1.name, bound.2)).mapM (evaluateBound i x field) =
      some (bounds.map fun bound => i.inBound field bound.1 bound.2 x) := by
    clear hrange
    induction bounds with
    | nil => rfl
    | cons bound bounds ih =>
      rw [List.map_cons, List.mapM_cons, ih]
      simp [evaluateBound, boundOfName?_name]
  rw [hrange, hbounds]
  simp

theorem evaluate_all (clauses : List Clause) :
    evaluate i x (Clause.all clauses).toJson =
      (evaluateEach i x (Clause.toJsonAll clauses)).bind (joined? "filter") := rfl

theorem evaluate_any (clauses : List Clause) :
    evaluate i x (Clause.any clauses).toJson =
      (evaluateEach i x (Clause.toJsonAll clauses)).bind
        (atLeast? "should" "minimum_should_match" (.ofNat 1)) := rfl

theorem evaluate_none (clauses : List Clause) :
    evaluate i x (Clause.none clauses).toJson =
      (evaluateEach i x (Clause.toJsonAll clauses)).bind (joined? "must_not") := rfl

/-- A field that is absent. -/
theorem evaluate_absent (field : String) :
    evaluate i x (Clause.unless (.present field)).toJson = some (!i.present field x) := by
  have hpart : evaluate i x (Clause.unless (.present field)).toJson =
      joined? "must_not" [i.present field x] := rfl
  rw [hpart]
  simp [joined?]

/-- Some truth is true when at least one of them is. -/
theorem any_id_eq (truths : List Bool) : truths.any id = decide (1 ≤ truths.countP id) := by
  rw [Bool.eq_iff_iff, List.any_eq_true, decide_eq_true_iff]
  exact List.countP_pos_iff.symm

end Search

namespace Filter

open Search

variable {δ : Type} (i : Interpretation δ) (x : δ)

/-- The written value of a literal is the one that it means. -/
theorem operand_eq_value (literal : Literal) : operand literal = literal.value := by
  cases literal <;> rfl

/-- The clause of a literal has the truth of the literal. -/
theorem evaluate_equals (field : String) (literal : Literal) :
    evaluate i x (equals field literal).toJson = some (literalHolds i x field literal) := by
  cases literal with
  | timestamp s | date s =>
    simp [equals, Literal.isTemporal, Literal.value, evaluate_range, literalHolds]
  | _ => rfl

/-- The clause of a connective joins the truth of its clauses. -/
theorem evaluate_combine (op : Connective) {clauses : List Clause} {truths : List Bool}
    (h : evaluateEach i x (Clause.toJsonAll clauses) = some truths) :
    evaluate i x (combine op clauses).toJson = some (joined op truths) := by
  cases op with
  | all => exact (evaluate_all i x clauses).trans (by rw [h]; rfl)
  | any =>
    rw [joined, any_id_eq]
    exact (evaluate_any i x clauses).trans (by rw [h]; rfl)
  | none => exact (evaluate_none i x clauses).trans (by rw [h]; rfl)

/-- The clause of a comparison has the truth of the comparison. -/
theorem evaluate_compileComparison {op : Comparison} {field : String} {literal : Option Literal}
    {c : Clause} (h : compileComparison op field literal = .ok c) :
    evaluate i x c.toJson = some (comparisonHolds i x field op literal) := by
  cases literal with
  | none =>
    rw [compileComparison] at h
    split at h
    · next hop =>
      cases h
      subst hop
      exact evaluate_absent i x field
    · simp at h
  | some literal =>
    cases h
    cases op with
    | eq => exact evaluate_equals i x field literal
    | neq =>
      have hone : evaluateEach i x (Clause.toJsonAll [equals field literal]) =
          some [literalHolds i x field literal] := by
        rw [Clause.toJsonAll, evaluateEach, evaluate_equals]
        rfl
      exact (evaluate_combine i x .none hone).trans (by simp [joined, comparisonHolds])
    | isNull => exact evaluate_absent i x field
    | lt | lte | gt | gte => simp [evaluate_range, comparisonHolds, operand_eq_value]

mutual

/-- The clause of a filter has the truth of the filter. -/
theorem evaluate_compile {o : FilterOptions} : ∀ (f : Filter) {c : Clause}, f.compile o = .ok c →
    evaluate i x c.toJson = some (f.holds i x o)
  | .connective op [], c, h => by simp [compile] at h
  | .connective op (f :: rest), c, h => by
    rw [compile] at h
    obtain ⟨clauses, hclauses, h⟩ := Outcome.bind_eq_ok_iff.1 h
    cases h
    exact evaluate_combine i x op (evaluateEach_compileAll (f :: rest) hclauses)
  | .comparison op property literal, c, h => evaluate_compileComparison i x h
  | .like property pattern, c, h => by
    rw [compile] at h
    obtain ⟨wildcard, hwildcard, h⟩ := Outcome.bind_eq_ok_iff.1 h
    cases h
    rw [holds, patternHolds, hwildcard]
    rfl
  | .between property lower upper, c, h => by
    cases h
    rw [evaluate_range, holds]
    simp [operand_eq_value]
  | .oneOf property values, c, h => by
    cases h
    rw [holds]
    simp [Clause.toJson, Clause.single, evaluate, evaluateTest, List.any_map, Function.comp_def,
      operand_eq_value]
  | .spatial relation property geometry, c, h => by
    cases h
    rw [holds]
    simp [Clause.toJson, Clause.single, evaluate, evaluateTest, relationOfName?_name]

theorem evaluateEach_compileAll {o : FilterOptions} : ∀ (fs : List Filter) {cs : List Clause},
    compileAll o fs = .ok cs → evaluateEach i x (Clause.toJsonAll cs) = some (holdsEach i x o fs)
  | [], cs, h => by
    cases h
    rfl
  | f :: rest, cs, h => by
    rw [compileAll] at h
    obtain ⟨clause, hclause, h⟩ := Outcome.bind_eq_ok_iff.1 h
    obtain ⟨clauses, hclauses, h⟩ := Outcome.bind_eq_ok_iff.1 h
    cases h
    have hfirst := evaluate_compile f hclause
    have hrest := evaluateEach_compileAll rest hclauses
    simp [Clause.toJsonAll, evaluateEach, hfirst, hrest, holdsEach]

end

/-- The children of one node are exchanged, anywhere in a filter. -/
inductive Exchanged : Filter → Filter → Prop where
  | here (op : Connective) {fs gs : List Filter} (h : fs.Perm gs) :
    Exchanged (.connective op fs) (.connective op gs)
  | inside (op : Connective) (before after : List Filter) {f g : Filter} (h : Exchanged f g) :
    Exchanged (.connective op (before ++ f :: after)) (.connective op (before ++ g :: after))

/-- Filters compile together when each of them compiles. -/
theorem exists_compileAll_iff {o : FilterOptions} (fs : List Filter) :
    (∃ cs, compileAll o fs = .ok cs) ↔ ∀ f ∈ fs, ∃ c, f.compile o = .ok c := by
  induction fs with
  | nil => simp [compileAll]
  | cons f fs ih =>
    rw [List.forall_mem_cons, ← ih]
    constructor
    · rintro ⟨cs, h⟩
      rw [compileAll] at h
      obtain ⟨c, hc, h⟩ := Outcome.bind_eq_ok_iff.1 h
      obtain ⟨rest, hrest, -⟩ := Outcome.bind_eq_ok_iff.1 h
      exact ⟨⟨c, hc⟩, ⟨rest, hrest⟩⟩
    · rintro ⟨⟨c, hc⟩, ⟨rest, hrest⟩⟩
      refine ⟨c :: rest, ?_⟩
      rw [compileAll, hc, hrest]
      rfl

/-- A node compiles when it has children and all of them compile. -/
theorem exists_compile_connective_iff {o : FilterOptions} (op : Connective) (fs : List Filter) :
    (∃ c, (connective op fs).compile o = .ok c) ↔
      fs ≠ [] ∧ ∀ f ∈ fs, ∃ c, f.compile o = .ok c := by
  cases fs with
  | nil => simp [compile]
  | cons f rest =>
    rw [← exists_compileAll_iff]
    constructor
    · rintro ⟨c, h⟩
      rw [compile] at h
      obtain ⟨cs, hcs, -⟩ := Outcome.bind_eq_ok_iff.1 h
      exact ⟨List.cons_ne_nil f rest, cs, hcs⟩
    · rintro ⟨-, cs, hcs⟩
      refine ⟨combine op cs, ?_⟩
      rw [compile, hcs]
      rfl

/-- A filter with exchanged children compiles. -/
theorem Exchanged.exists_compile {o : FilterOptions} {f g : Filter} (h : Exchanged f g) :
    (∃ c, f.compile o = .ok c) → ∃ c, g.compile o = .ok c := by
  induction h with
  | here op hperm =>
    rw [exists_compile_connective_iff, exists_compile_connective_iff]
    rintro ⟨hne, hall⟩
    refine ⟨?_, fun f hf => hall f (hperm.mem_iff.2 hf)⟩
    rintro rfl
    exact hne hperm.eq_nil
  | inside op before after _ ih =>
    rw [exists_compile_connective_iff, exists_compile_connective_iff]
    rintro ⟨-, hall⟩
    rw [List.forall_mem_append, List.forall_mem_cons] at hall ⊢
    exact ⟨by simp, hall.1, ih hall.2.1, hall.2.2⟩

theorem holdsEach_eq_map (o : FilterOptions) (fs : List Filter) :
    holdsEach i x o fs = fs.map (holds i x o) := by
  induction fs with
  | nil => rfl
  | cons f fs ih => rw [holdsEach, ih, List.map_cons]

/-- The order of the children does not count for their truth. -/
theorem joined_perm (op : Connective) {truths others : List Bool} (h : truths.Perm others) :
    joined op truths = joined op others := by
  cases op with
  | all => exact h.all_eq
  | any => exact h.any_eq
  | none => exact congrArg Bool.not h.any_eq

/-- A filter with exchanged children has the same truth. -/
theorem Exchanged.holds_eq {o : FilterOptions} {f g : Filter} (h : Exchanged f g) :
    f.holds i x o = g.holds i x o := by
  induction h with
  | here op hperm =>
    rw [holds, holds, holdsEach_eq_map, holdsEach_eq_map]
    exact joined_perm op (hperm.map _)
  | inside op before after _ ih =>
    rw [holds, holds, holdsEach_eq_map, holdsEach_eq_map, List.map_append, List.map_append,
      List.map_cons, List.map_cons, ih]

/-- A filter that compiles gives a clause with its truth, under every reading of the tests and for
every document, and exchanging children anywhere in it gives one with the same truth. -/
theorem evaluate_of_compile {o : FilterOptions} {f : Filter} {c : Clause}
    (h : f.compile o = .ok c) :
    (∀ (δ : Type) (i : Interpretation δ) (x : δ),
        Search.evaluate i x c.toJson = some (f.holds i x o)) ∧
      ∀ g, Relation.ReflTransGen Exchanged f g → ∃ c', g.compile o = .ok c' ∧
        ∀ (δ : Type) (i : Interpretation δ) (x : δ),
          Search.evaluate i x c'.toJson = Search.evaluate i x c.toJson := by
  refine ⟨fun δ i x => evaluate_compile i x f h, fun g hg => ?_⟩
  have hall : (∃ c', g.compile o = .ok c') ∧
      ∀ (δ : Type) (i : Interpretation δ) (x : δ), f.holds i x o = g.holds i x o := by
    induction hg with
    | refl => exact ⟨⟨c, h⟩, fun _ _ _ => rfl⟩
    | tail _ hstep ih =>
      exact ⟨hstep.exists_compile ih.1, fun δ i x => (ih.2 δ i x).trans (hstep.holds_eq i x)⟩
  obtain ⟨⟨c', hc'⟩, htruth⟩ := hall
  refine ⟨c', hc', fun δ i x => ?_⟩
  rw [evaluate_compile i x g hc', evaluate_compile i x f h, htruth δ i x]

theorem evaluate_of_compile_date_or_pattern :
    ∃ c, (Filter.connective .none [.comparison .eq "created" (some (.date "2020-01-01")),
        .like "id" "a%"]).compile ⟨Mapping.empty, true⟩ = .ok c ∧
      ∀ (δ : Type) (i : Interpretation δ) (x : δ), Search.evaluate i x c.toJson =
        some !(i.inBound "properties.created" .gte (.text "2020-01-01") x &&
            i.inBound "properties.created" .lte (.text "2020-01-01") x ||
          i.fits "id" "a*" true x) := by
  obtain ⟨c, hc⟩ : ∃ c, (Filter.connective .none [.comparison .eq "created"
      (some (.date "2020-01-01")), .like "id" "a%"]).compile ⟨Mapping.empty, true⟩ = .ok c :=
    ⟨_, rfl⟩
  refine ⟨c, hc, fun δ i x => ?_⟩
  have hpattern : Like.translate "a%" = .ok "a*" := rfl
  have hcreated : Mapping.empty.resolve "created" = "properties.created" := rfl
  have hid : Mapping.empty.resolve "id" = "id" := rfl
  rw [(evaluate_of_compile hc).1 δ i x]
  simp [holds, holdsEach, joined, comparisonHolds, literalHolds, patternHolds, hpattern, hcreated,
    hid]

end Filter

end Catalog
