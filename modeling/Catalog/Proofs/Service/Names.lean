import Catalog.Proofs.Mapping.Paths
import Catalog.Proofs.Service.History

/-!
# The names that a service lets through

A service that validates lets a name through if the schema has told a path for it, after the
container in front of the name was taken off. What it emits is the path of the name as it is
written. So it reads some names that it lets through at a path where nothing is stored.
-/

namespace Catalog

/-- The names of the properties that a goal compiles. -/
def Goal.names : Goal → List String
  | .compile _ filter => filter.leafProperties
  | .sort order => order.map SortField.field
  | _ => []

/-- The fields that are read by the clauses in an answer, if it has any. -/
def Response.fields? : Response → Option (List String)
  | .clause (.ok (some c)) => some c.fields
  | .order (.ok clauses) => some (clauses.map Prod.fst)
  | _ => none

/-- Compile a sort order under a gate, if there is one. -/
def compileSortGated (allowed : Option (List String)) (m : Mapping) (order : List SortField) :
    Except CompileError (List (String × Direction)) := do
  Filter.gate allowed (order.map SortField.field)
  compileSort m order

/-- Compiling a sort order for a call is compiling it under a gate of the fields. -/
theorem Service.complete_sort (s : Service) (allowed : List String) (order : List SortField) :
    (s.complete (some allowed) (.sort order)).2 =
      .order (compileSortGated (some allowed) s.cache.mapping order) := by
  unfold complete check compileSortGated
  dsimp only
  generalize Filter.gate (some allowed) (order.map SortField.field) = gated
  cases gated with
  | error e => rfl
  | ok => rfl

/-- The names of a goal were let through when it is completed with clauses, and these read the paths
of the names as they are written. -/
theorem Service.fields?_complete {s : Service} {allowed : List String} {goal : Goal}
    {paths : List String} (h : (s.complete (some allowed) goal).2.fields? = some paths) :
    (∀ name ∈ goal.names, Mapping.logicalName name ∈ allowed) ∧
      paths = goal.names.map s.cache.mapping.resolve := by
  cases goal with
  | compile kind filter =>
    rw [(complete_compile s allowed kind filter).1] at h
    cases hclause : filter.compileGated (some allowed) s.filterOptions with
    | error e =>
      rw [hclause] at h
      cases h
    | ok clause =>
      rw [hclause] at h
      cases h
      obtain ⟨hgate, hcompile⟩ := Filter.compileGated_eq_ok_iff.1 hclause
      exact ⟨fun name hname => Filter.gate_eq_ok_iff.1 hgate name (Filter.mem_properties.2 hname),
        Filter.fields_of_compile filter hcompile⟩
  | sort order =>
    rw [complete_sort s allowed order] at h
    cases hclauses : compileSortGated (some allowed) s.cache.mapping order with
    | error e =>
      rw [hclauses] at h
      cases h
    | ok clauses =>
      rw [hclauses] at h
      cases h
      obtain ⟨_, hgate, hcompile⟩ := Outcome.bind_eq_ok_iff.1 hclauses
      exact ⟨Filter.gate_eq_ok_iff.1 hgate, fst_of_compileSort hcompile⟩
  | _ => cases h

namespace Idle

variable {config : Config} {start : Int} {past : List Happening} {i : Idle} {v : Visit}
  {goal : Goal} {r : Response} {paths : List String}

/-- The mapping that a visit leaves behind, which is the one that its answer was compiled with. -/
def mappingAfter (i : Idle) (v : Visit) : Mapping := (i.serve v).service.cache.mapping

/-- The goal of a visit is completed with the fields that the access has found. A read finds the
names that the schema has told last. -/
theorem Follows.exists_complete (h : i.Follows config start past)
    (hon : config.validateFields = true) (hreaches : v.call.Reaches i.service.state goal) :
    ∃ (t : Service) (fields : List String), t.config = i.service.config ∧
      t.cache.mapping = i.mappingAfter v ∧
      (goal.purpose = .read → fields = (i.mappingAfter v).dynamic.map Prod.fst) ∧
      (i.serve v).progress = .answered (t.complete (some fields) goal).2 := by
  obtain ⟨t, hconfig, hstate, -, hserve⟩ :=
    serve_of_reaches (h.enabled_eq.trans hon) h.cache.free hreaches
  have hcache : (i.next v).service.cache = t.cache := by
    rw [Idle.next, hserve]
    exact (complete_eq hreaches hstate _).2
  have hfollows := (h.next v).cache
  rw [hcache] at hfollows
  have hmapping : t.cache.mapping = i.mappingAfter v := congrArg Cache.mapping hcache.symm
  refine ⟨t, goal.purpose.found t.cache, hconfig, hmapping, fun hread => ?_, by rw [hserve]⟩
  rw [hread, Purpose.found, hfollows.fields_eq, ← hmapping, hfollows.mapping_eq]

/-- The schema has told a path for each name that a visit lets through, and the answer reads the
paths of the names as they are written. -/
theorem Follows.fields?_answer (h : i.Follows config start past)
    (hon : config.validateFields = true) (hreaches : v.call.Reaches i.service.state goal)
    (hanswered : (i.serve v).progress = .answered r) (hpaths : r.fields? = some paths) :
    (∀ name ∈ goal.names,
        Mapping.logicalName name ∈ (i.mappingAfter v).dynamic.map Prod.fst) ∧
      paths = goal.names.map (i.mappingAfter v).resolve := by
  obtain ⟨t, fields, -, hmapping, hread, hprogress⟩ := h.exists_complete hon hreaches
  obtain rfl : (t.complete (some fields) goal).2 = r :=
    Progress.answered.inj (hprogress.symm.trans hanswered)
  obtain ⟨hnames, heq⟩ := Service.fields?_complete hpaths
  rw [hmapping] at heq
  refine ⟨fun name hname => ?_, heq⟩
  have hpurpose : goal.purpose = .read := by
    cases goal with
    | start => exact absurd hname List.not_mem_nil
    | warm => exact absurd hname List.not_mem_nil
    | _ => rfl
  rw [← hread hpurpose]
  exact hnames name hname

/-- The first filter of a service is compiled under a gate of the schema, if this is told then. -/
theorem progress_first (config : Config) (hon : config.validateFields = true) (now : Int)
    {kind : CompileKind} {n : Filter} (hreaches : v.call.Reaches .created (.compile kind n))
    {schema : Schema} (hanswer : v.answer = some schema) :
    (new config now).mappingAfter v = ⟨schema⟩ ∧
      ((new config now).serve v).progress = .answered (.clause
        ((n.compileGated (some (schema.map Prod.fst))
          ⟨⟨schema⟩, config.caseInsensitiveLike⟩).map some)) := by
  have h := follows_new config now
  have hserved := served h.cache.free h.steady v
  have hasked : ((new config now).serve v).asked = true :=
    hserved.asked_iff.2 ⟨hon, _, hreaches, rfl⟩
  have hmapping : (new config now).mappingAfter v = ⟨schema⟩ := by
    rw [mappingAfter, hserved.cache_eq, if_pos hasked, hanswer]
    rfl
  obtain ⟨t, fields, hconfig, ht, hread, hprogress⟩ := h.exists_complete hon hreaches
  refine ⟨hmapping, ?_⟩
  rw [hprogress, (Service.complete_compile t fields kind n).1, Service.filterOptions_eq hconfig, ht,
    hread rfl, hmapping]
  rfl

/-- A service that validates reads a name that it lets through at the path of the name as it is
written. The schema has told a path for the name without the container in front of it, so this one
has a path in the fixed table or else in the schema. Both paths are the same exactly if there is no
container, or if the path that the schema tells for the name as it is written, or without such a
path the name itself, is the path of the name without the container. -/
theorem fields_eq_map_resolve (config : Config) (now : Int) (visits : List Visit) (v : Visit)
    (hon : config.validateFields = true) :
    let i := (new config now).after visits
    let m := i.mappingAfter v
    ∀ (goal : Goal) (r : Response) (paths : List String),
      v.call.Reaches i.service.state goal → (i.serve v).progress = .answered r →
      r.fields? = some paths →
      paths = goal.names.map m.resolve ∧
        ∀ name ∈ goal.names,
          let logical := Mapping.logicalName name
          logical ∈ m.dynamic.map Prod.fst ∧
          some (m.resolve logical) =
            (Mapping.fixedPath? logical).or (m.dynamic.lookup logical) ∧
          (m.resolve name = m.resolve logical ↔
            logical = name ∨ (m.dynamic.lookup name).getD name = m.resolve logical) := by
  intro i m goal r paths hreaches hanswered hpaths
  have h : i.Follows config now ((new config now).history visits) := follows config now visits
  obtain ⟨hnames, heq⟩ := h.fields?_answer hon hreaches hanswered hpaths
  refine ⟨heq, fun name hname => ?_⟩
  have hlogical := hnames name hname
  exact ⟨hlogical, (Mapping.path?_eq_resolve hlogical).symm,
    Mapping.resolve_eq_resolve_logicalName_iff m name⟩

theorem fields_eq_map_resolve_two_names :
    let config : Config := { Config.standard with validateFields := true }
    let schema : Schema := [("gsd", "properties.gsd"), ("cloud_cover", "properties.cloud")]
    let filter : Filter := .connective .all [.comparison .isNull "properties.gsd" none,
      .comparison .isNull "properties.cloud_cover" none]
    let v : Visit := ⟨.filterTree filter, 0, 0, some schema⟩
    let m := (new config 0).mappingAfter v
    ∃ r, ((new config 0).serve v).progress = .answered r ∧
      r.fields? = some ["properties.gsd", "properties.cloud_cover"] ∧
      m.resolve "properties.gsd" = m.resolve "gsd" ∧
      m.resolve "properties.cloud_cover" ≠ m.resolve "cloud_cover" := by
  intro config schema filter v m
  have hreaches : v.call.Reaches (new config 0).service.state (.compile .filter filter) :=
    .filterTree filter
  obtain ⟨hmapping, hprogress⟩ := progress_first config rfl 0 hreaches rfl
  have hnames := (fields_eq_map_resolve config 0 [] v rfl _ _ _ hreaches hprogress rfl).2
  have hm : ((new config 0).after []).mappingAfter v = ⟨schema⟩ := hmapping
  rw [hm] at hnames
  have hgsd := (hnames "properties.gsd" (by decide)).2.2
  have hcloud := (hnames "properties.cloud_cover" (by decide)).2.2
  refine ⟨_, hprogress, rfl, ?_, ?_⟩
  · rw [show m = ⟨schema⟩ from hmapping]
    exact hgsd.2 (.inr (by decide))
  · rw [show m = ⟨schema⟩ from hmapping]
    exact fun heq => absurd (hcloud.1 heq) (by decide)

/-- A service that validates reads every name that it lets through at the path of the name without
the container in front of it. -/
def ReadsNamesAlike : Prop :=
  ∀ (config : Config) (now : Int) (visits : List Visit) (v : Visit),
    config.validateFields = true →
    let i := (new config now).after visits
    ∀ (goal : Goal) (r : Response) (paths : List String),
      v.call.Reaches i.service.state goal → (i.serve v).progress = .answered r →
      r.fields? = some paths →
      paths = goal.names.map fun name => (i.mappingAfter v).resolve (Mapping.logicalName name)

/-- The fixed table has a path for the name without the container, but none for the name as it is
written here, and the schema has none for it either. -/
theorem not_readsNamesAlike : ¬ReadsNamesAlike := by
  intro h
  let config : Config := { Config.standard with validateFields := true }
  let filter : Filter :=
    .comparison .eq "properties.cloud_cover" (some (.number (.integer 5)))
  let schema : Schema := [("cloud_cover", "properties.eo:cloud_cover")]
  let v : Visit := ⟨.filterTree filter, 0, 0, some schema⟩
  have hreaches : v.call.Reaches (new config 0).service.state (.compile .filter filter) :=
    .filterTree filter
  obtain ⟨hmapping, hprogress⟩ := progress_first config rfl 0 hreaches rfl
  have hpaths := h config 0 [] v rfl _ _ _ hreaches hprogress rfl
  have hafter : ((new config 0).after []).mappingAfter v = ⟨schema⟩ := hmapping
  rw [hafter] at hpaths
  exact absurd hpaths (by decide)

end Idle

end Catalog
