import Catalog.Proofs.Filter.Faults
import Catalog.Proofs.Filter.Gate
import Catalog.Proofs.Mapping.Paths

/-!
# The fields that a search clause tests

The tests in the written form of a search clause are read from left to right. Each of them tests one
field. A filter that compiles has one test for each leaf, in the order of the leaves, and it tests
the path of the property that the leaf names. The gate looks at the same names, each of them once.
So a clause that has passed a gate tests nothing but paths of allowed names.
-/

namespace Catalog

namespace Search

/-- The field that a test of this kind is about. -/
def testedField? (kind : String) (body : Json) : Option String :=
  if kind = "exists" then
    match body with
    | .object [("field", .text field)] => some field
    | _ => none
  else if kind ∈ ["term", "range", "wildcard", "terms", "geo_shape"] then
    match body with
    | .object [(field, _)] => some field
    | _ => none
  else none

/-- The parts of a `bool` clause that hold clauses. -/
def clauseParts : List String := ["must", "filter", "should", "must_not"]

mutual

/-- The fields that the tests in a written clause are about, from left to right. A form that is not
known has none. -/
def fields? : Json → Option (List String)
  | .object [("bool", .object parts)] => partFields? parts
  | .object [(kind, body)] => (testedField? kind body).map fun field => [field]
  | _ => none

/-- The fields of the parts of a `bool` clause, each of which holds several clauses or one. -/
def partFields? : List (String × Json) → Option (List String)
  | [] => some []
  | ("minimum_should_match", _) :: rest => partFields? rest
  | (part, .array clauses) :: rest =>
    if part ∈ clauseParts then do return (← fieldsEach? clauses) ++ (← partFields? rest)
    else none
  | (part, clause) :: rest =>
    if part ∈ clauseParts then do return (← fields? clause) ++ (← partFields? rest)
    else none

/-- The fields of several written clauses. -/
def fieldsEach? : List Json → Option (List String)
  | [] => some []
  | clause :: rest => do return (← fields? clause) ++ (← fieldsEach? rest)

end

end Search

namespace Clause

theorem exists_toJson_eq (c : Clause) : ∃ kind body, c.toJson = .object [(kind, body)] := by
  cases c with
  | _ => exact ⟨_, _, rfl⟩

/-- A part that holds a single clause has the fields of that clause. -/
theorem fields?_unless (c : Clause) :
    Search.fields? (Clause.unless c).toJson = Search.fields? c.toJson := by
  obtain ⟨kind, body, hjson⟩ := exists_toJson_eq c
  have hpart : Search.fields? (Clause.unless c).toJson =
      (do return (← Search.fields? c.toJson) ++ (← some [])) := by
    rw [toJson, hjson]
    rfl
  rw [hpart]
  cases Search.fields? c.toJson with
  | none => rfl
  | some fields => simp

mutual

/-- The tests in a written clause are about the fields that the clause reads. -/
theorem fields?_toJson : ∀ c : Clause, Search.fields? c.toJson = some c.fields
  | .all clauses => by
    simp [toJson, single, Search.fields?, Search.partFields?, Search.clauseParts,
      fieldsEach?_toJsonAll clauses, fields]
  | .any clauses => by
    simp [toJson, single, Search.fields?, Search.partFields?, Search.clauseParts,
      fieldsEach?_toJsonAll clauses, fields]
  | .none clauses => by
    simp [toJson, single, Search.fields?, Search.partFields?, Search.clauseParts,
      fieldsEach?_toJsonAll clauses, fields]
  | .unless clause => (fields?_unless clause).trans (fields?_toJson clause)
  | .present field => rfl
  | .term field value => rfl
  | .range field bounds => rfl
  | .wildcard field pattern caseInsensitive => rfl
  | .terms field values => rfl
  | .shape field geometry relation => rfl

theorem fieldsEach?_toJsonAll : ∀ cs : List Clause,
    Search.fieldsEach? (toJsonAll cs) = some (fieldsAll cs)
  | [] => rfl
  | c :: rest => by
    simp [toJsonAll, Search.fieldsEach?, fields?_toJson c, fieldsEach?_toJsonAll rest, fieldsAll]

end

end Clause

namespace Filter

variable {o : FilterOptions} {f : Filter} {c : Clause}

/-- The properties are those of the leaves, each at its first occurrence. -/
theorem properties_eq_eraseDups (f : Filter) : f.properties = f.leafProperties.eraseDups := by
  rw [properties, Text.appendNew_eq_append]
  simp

/-- Each leaf of a filter that compiles names a property. -/
theorem exists_subject?_of_compile (h : f.compile o = .ok c) {leaf : Filter}
    (hleaf : leaf ∈ f.leaves) : ∃ name, leaf.subject? = some name := by
  have hsound := exists_compile_iff.1 ⟨c, h⟩ leaf hleaf
  cases leaf with
  | connective op children =>
    cases children with
    | nil => exact absurd (.childless op) (hsound _)
    | cons g rest => exact absurd rfl (ne_connective_of_mem_leaves hleaf op g rest)
  | comparison op property literal => exact ⟨property, rfl⟩
  | like property pattern => exact ⟨property, rfl⟩
  | between property lower upper => exact ⟨property, rfl⟩
  | oneOf property values => exact ⟨property, rfl⟩
  | spatial relation property geometry => exact ⟨property, rfl⟩

/-- So there is exactly one property for each leaf. -/
theorem map_subject?_leaves (h : f.compile o = .ok c) :
    f.leaves.map subject? = f.leafProperties.map some := by
  have hall : ∀ leaf ∈ f.leaves, ∃ name, leaf.subject? = some name := fun leaf hleaf =>
    exists_subject?_of_compile h hleaf
  rw [← filterMap_subject?_leaves f]
  generalize f.leaves = leaves at hall
  induction leaves with
  | nil => rfl
  | cons leaf rest ih =>
    obtain ⟨⟨name, hname⟩, hrest⟩ := List.forall_mem_cons.1 hall
    rw [List.map_cons, List.filterMap_cons_some hname, List.map_cons, hname, ih hrest]

/-- A filter that compiles has one test in its written clause for each leaf, in the order of the
leaves, and each test is about the path of the property that its leaf names. The properties that a
gate looks at are the same names, each at its first occurrence. So behind a gate no test is about
anything but the path of a name that is allowed without its container. -/
theorem fields_follow_leaves (h : f.compile o = .ok c) :
    ∃ names : List String, f.leaves.map subject? = names.map some ∧
      Search.fields? c.toJson = some (names.map o.mapping.resolve) ∧
      f.properties = names.eraseDups ∧
      ∀ allowed gated, f.compileGated (some allowed) o = .ok gated →
        ∃ fields, Search.fields? gated.toJson = some fields ∧
          ∀ field ∈ fields, ∃ name ∈ names,
            field = o.mapping.resolve name ∧ Mapping.logicalName name ∈ allowed := by
  have hfields (c : Clause) (h : f.compile o = .ok c) :
      Search.fields? c.toJson = some (f.leafProperties.map o.mapping.resolve) := by
    rw [Clause.fields?_toJson, fields_of_compile f h]
  refine ⟨f.leafProperties, map_subject?_leaves h, hfields c h, properties_eq_eraseDups f,
    fun allowed gated hgated => ?_⟩
  obtain ⟨hgate, hcompile⟩ := compileGated_eq_ok_iff.1 hgated
  refine ⟨_, hfields gated hcompile, fun field hfield => ?_⟩
  obtain ⟨name, hname, rfl⟩ := List.mem_map.1 hfield
  exact ⟨name, hname, rfl, gate_eq_ok_iff.1 hgate _ (mem_properties.2 hname)⟩

theorem fields_follow_leaves_repeated_name :
    let f : Filter := .connective .none [.comparison .isNull "cloud_cover" none,
      .connective .any [.like "id" "a%", .comparison .neq "cloud_cover" (some (.text "b"))]]
    ∃ c, f.compileGated (some ["id", "cloud_cover"]) ⟨Mapping.empty, true⟩ = .ok c ∧
      Search.fields? c.toJson =
        some ["properties.eo:cloud_cover", "id", "properties.eo:cloud_cover"] ∧
      f.properties = ["cloud_cover", "id"] := by
  intro f
  obtain ⟨c, hc⟩ : ∃ c, f.compile ⟨Mapping.empty, true⟩ = .ok c := ⟨_, rfl⟩
  have hgate : gate (some ["id", "cloud_cover"]) f.properties = .ok () := rfl
  obtain ⟨names, hleaves, hfields, hproperties, -⟩ := fields_follow_leaves hc
  have hmap : names.map some = ["cloud_cover", "id", "cloud_cover"].map some :=
    hleaves.symm.trans rfl
  obtain rfl : names = ["cloud_cover", "id", "cloud_cover"] :=
    (List.map_inj_right fun _ _ => Option.some.inj).1 hmap
  exact ⟨c, compileGated_eq_ok_iff.2 ⟨hgate, hc⟩, hfields, hproperties⟩

end Filter

end Catalog
