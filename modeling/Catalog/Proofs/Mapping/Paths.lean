import Catalog.Filter.Compile
import Catalog.Proofs.Outcome
import Catalog.Sort

/-!
# The paths of names

The clause of a filter and the clauses of a sort order read one path for each name, in the order of
the names, and it is the path of the name as it is written. The mapping does not take the container
off a name. So a name with the container in front of it has the path of the name without only if its
own entry says so, or if the path without an entry happens to be that one.
-/

namespace Catalog

namespace Clause

mutual

/-- The fields that a clause reads, from left to right. -/
def fields : Clause → List String
  | .all clauses => fieldsAll clauses
  | .any clauses => fieldsAll clauses
  | .none clauses => fieldsAll clauses
  | .unless clause => clause.fields
  | .present field => [field]
  | .term field _ => [field]
  | .range field _ => [field]
  | .wildcard field _ _ => [field]
  | .terms field _ => [field]
  | .shape field _ _ => [field]

/-- The fields that several clauses read. -/
def fieldsAll : List Clause → List String
  | [] => []
  | c :: rest => c.fields ++ fieldsAll rest

end

end Clause

namespace Filter

variable {o : FilterOptions}

theorem fields_combine (op : Connective) (cs : List Clause) :
    (combine op cs).fields = Clause.fieldsAll cs := by
  cases op with
  | _ => rfl

theorem fields_equals (field : String) (literal : Literal) :
    (equals field literal).fields = [field] := by
  unfold equals
  split
  · rfl
  · rfl

theorem fields_compileComparison {op : Comparison} {field : String} {literal : Option Literal}
    {c : Clause} (h : compileComparison op field literal = .ok c) : c.fields = [field] := by
  cases literal with
  | none =>
    rw [compileComparison] at h
    split at h
    · cases h
      rfl
    · cases h
  | some literal =>
    cases h
    cases op with
    | eq => exact fields_equals field literal
    | neq => simp [Clause.fields, Clause.fieldsAll, fields_equals]
    | _ => rfl

mutual

/-- A clause reads the paths of the names in the leaves of its filter. -/
theorem fields_of_compile : ∀ (f : Filter) {c : Clause}, f.compile o = .ok c →
    c.fields = f.leafProperties.map o.mapping.resolve
  | .connective op [], c, h => by
    cases h
  | .connective op (f :: rest), c, h => by
    rw [compile] at h
    obtain ⟨cs, hcs, h⟩ := Outcome.bind_eq_ok_iff.1 h
    cases h
    rw [fields_combine, fieldsAll_of_compileAll _ hcs, leafProperties]
  | .comparison op property literal, c, h => fields_compileComparison h
  | .like property pattern, c, h => by
    rw [compile] at h
    obtain ⟨translated, -, h⟩ := Outcome.bind_eq_ok_iff.1 h
    cases h
    rfl
  | .between property lower upper, c, h => by
    cases h
    rfl
  | .oneOf property values, c, h => by
    cases h
    rfl
  | .spatial relation property geometry, c, h => by
    cases h
    rfl

theorem fieldsAll_of_compileAll : ∀ (fs : List Filter) {cs : List Clause},
    compileAll o fs = .ok cs →
      Clause.fieldsAll cs = (leafPropertiesAll fs).map o.mapping.resolve
  | [], cs, h => by
    cases h
    rfl
  | f :: rest, cs, h => by
    rw [compileAll] at h
    obtain ⟨clause, hclause, h⟩ := Outcome.bind_eq_ok_iff.1 h
    obtain ⟨clauses, hclauses, h⟩ := Outcome.bind_eq_ok_iff.1 h
    cases h
    rw [Clause.fieldsAll, leafPropertiesAll, List.map_append, fields_of_compile f hclause,
      fieldsAll_of_compileAll rest hclauses]

end

end Filter

/-- The clauses of a sort order read the paths of its fields. -/
theorem fst_of_compileSort {m : Mapping} {fields : List SortField}
    {clauses : List (String × Direction)} (h : compileSort m fields = .ok clauses) :
    clauses.map Prod.fst = (fields.map SortField.field).map m.resolve := by
  have hall := Outcome.mapM_eq_ok_iff.1 h
  clear h
  induction hall with
  | nil => rfl
  | cons hclause _ ih =>
    obtain ⟨direction, -, hclause⟩ := Outcome.bind_eq_ok_iff.1 hclause
    cases hclause
    simp only [List.map_cons, ih]

namespace Mapping

variable {m : Mapping} {name : String}

/-- The entry of a name, in the fixed table or from the schema. A name has one if the schema tells
a path for it. -/
theorem path?_eq_resolve (h : name ∈ m.dynamic.map Prod.fst) :
    m.path? name = some (m.resolve name) := by
  obtain ⟨entry, hentry, rfl⟩ := List.mem_map.1 h
  have hdynamic : (m.dynamic.lookup entry.1).isSome :=
    List.lookup_isSome_iff.2 ⟨entry, hentry, beq_self_eq_true _⟩
  have hpath : (m.path? entry.1).isSome := by
    rw [path?, Option.isSome_or, hdynamic, Bool.or_true]
  obtain ⟨path, hpath⟩ := Option.isSome_iff_exists.1 hpath
  rw [resolve, hpath, Option.getD_some]

/-- No name in the fixed table has the container in front of it. -/
theorem fixedPath?_of_logicalName_ne (h : logicalName name ≠ name) : fixedPath? name = none := by
  have hplain : ∀ entry ∈ fixedPaths, logicalName entry.1 = entry.1 := by decide
  refine List.lookup_eq_none_iff.2 fun entry hentry => ?_
  rw [bne_iff_ne]
  rintro rfl
  exact h (hplain entry hentry)

/-- A name has the path that it has without the container in front of it exactly when there is no
container, or when its own entry, or without one the name itself, is that path. -/
theorem resolve_eq_resolve_logicalName_iff (m : Mapping) (name : String) :
    m.resolve name = m.resolve (logicalName name) ↔
      logicalName name = name ∨
        (m.dynamic.lookup name).getD name = m.resolve (logicalName name) := by
  by_cases h : logicalName name = name
  · simp [h]
  · have hresolve : m.resolve name = (m.dynamic.lookup name).getD name := by
      rw [resolve, path?, fixedPath?_of_logicalName_ne h, Option.none_or]
    rw [hresolve, or_iff_right h]

end Mapping

end Catalog
