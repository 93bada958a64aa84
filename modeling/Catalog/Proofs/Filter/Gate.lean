import Catalog.Filter.Compile
import Catalog.Proofs.Filter.Leaves
import Catalog.Proofs.Text.Order

/-!
# The gate of a filter

A gate refuses a filter exactly when it names a property that is not allowed, whatever else is wrong
with the filter. The refusal tells all such names, as they are written, in order and each of them
once. A filter that passes is compiled as if there were no gate.
-/

namespace Catalog

namespace Filter

variable {allowed : List String} {o : FilterOptions} {f : Filter} {name : String}

/-- The field that a written name is about: the container in front of it is left out, once. -/
inductive Denotes : String → String → Prop where
  | inContainer (field : String) : Denotes ("properties." ++ field) field
  | plain (field : String) (h : ∀ rest, field ≠ "properties." ++ rest) : Denotes field field

/-- A leaf of the filter names this property, and the field that it is about is not allowed. -/
def Misnames (f : Filter) (allowed : List String) (name : String) : Prop :=
  (∃ leaf ∈ f.leaves, leaf.subject? = some name) ∧ ∃ field, Denotes name field ∧ field ∉ allowed

theorem logicalName_append (field : String) :
    Mapping.logicalName ("properties." ++ field) = field := by
  have hlength : "properties.".length = "properties.".toList.length := String.length_toList.symm
  have htake : ("properties." ++ field).toList.take "properties.".length = "properties.".toList := by
    rw [String.toList_append, hlength, List.take_left]
  rw [Mapping.logicalName, Mapping.propertiesOpening]
  simp only [htake, if_true]
  rw [String.toList_append, hlength, List.drop_left, String.ofList_toList]

theorem logicalName_of_forall_ne (h : ∀ rest, name ≠ "properties." ++ rest) :
    Mapping.logicalName name = name := by
  refine if_neg fun htake => h (String.ofList (name.toList.drop "properties.".length)) ?_
  refine String.toList_inj.1 ?_
  calc name.toList
      = name.toList.take "properties.".length ++ name.toList.drop "properties.".length :=
        (List.take_append_drop ..).symm
    _ = "properties.".toList ++ name.toList.drop "properties.".length := congrArg (· ++ _) htake
    _ = _ := by simp

/-- Every written name is about one field. -/
theorem denotes_iff {field : String} : Denotes name field ↔ field = Mapping.logicalName name := by
  constructor
  · rintro (_ | ⟨_, h⟩)
    · exact (logicalName_append field).symm
    · exact (logicalName_of_forall_ne h).symm
  · rintro rfl
    by_cases h : ∃ rest, name = "properties." ++ rest
    · obtain ⟨rest, rfl⟩ := h
      rw [logicalName_append]
      exact .inContainer rest
    · rw [not_exists] at h
      rw [logicalName_of_forall_ne h]
      exact .plain name h

theorem misnames_iff :
    f.Misnames allowed name ↔ name ∈ f.leafProperties ∧ Mapping.logicalName name ∉ allowed := by
  rw [Misnames, ← filterMap_subject?_leaves, List.mem_filterMap]
  simp [denotes_iff]

instance (f : Filter) (allowed : List String) (name : String) :
    Decidable (f.Misnames allowed name) :=
  decidable_of_iff _ misnames_iff.symm

theorem mem_properties : name ∈ f.properties ↔ name ∈ f.leafProperties := by
  simp [properties, Text.mem_appendNew]

theorem mem_undefinedNames :
    name ∈ undefinedNames (some allowed) f.properties ↔ f.Misnames allowed name := by
  rw [misnames_iff, ← mem_properties]
  simp [undefinedNames]

/-- A gate lets through what names allowed properties only. -/
theorem gate_eq_ok_iff {names : List String} :
    gate (some allowed) names = .ok () ↔ ∀ name ∈ names, Mapping.logicalName name ∈ allowed := by
  have hempty : (undefinedNames (some allowed) names).isEmpty = true ↔
      ∀ name ∈ names, Mapping.logicalName name ∈ allowed := by
    simp [undefinedNames]
  rw [← hempty, gate]
  split
  · next h => simp [h]
  · next h => simp [h]

theorem compileGated_eq_ok_iff {allowed : Option (List String)} {c : Clause} :
    f.compileGated allowed o = .ok c ↔
      gate allowed f.properties = .ok () ∧ f.compile o = .ok c := by
  rw [compileGated, Outcome.bind_eq_ok_iff]
  constructor
  · rintro ⟨⟨⟩, hgate, hcompile⟩
    exact ⟨hgate, hcompile⟩
  · rintro ⟨hgate, hcompile⟩
    exact ⟨(), hgate, hcompile⟩

/-- A gate refuses all names that are not allowed at once. -/
theorem gate_of_misnames (h : f.Misnames allowed name) :
    gate (some allowed) f.properties =
      .error (.ofFields (undefinedNames (some allowed) f.properties)) := by
  have hne : undefinedNames (some allowed) f.properties ≠ [] :=
    List.ne_nil_of_mem (mem_undefinedNames.2 h)
  simp [gate, hne]

theorem compileGated_of_forall (h : ∀ name, ¬f.Misnames allowed name) :
    f.compileGated (some allowed) o = f.compile o := by
  have hallowed : ∀ name ∈ f.properties, Mapping.logicalName name ∈ allowed := fun name hname =>
    Decidable.not_not.1 fun hnot => h name (misnames_iff.2 ⟨mem_properties.1 hname, hnot⟩)
  rw [compileGated, gate_eq_ok_iff.2 hallowed]
  rfl

/-- The refused names are those that are not allowed, in strictly increasing order. -/
theorem compileGated_of_misnames (h : f.Misnames allowed name) :
    ∃ fields, f.compileGated (some allowed) o = .error (.undefinedFields fields) ∧
      fields.Pairwise (· < ·) ∧ ∀ name, name ∈ fields ↔ f.Misnames allowed name := by
  refine ⟨Text.sortDistinct (undefinedNames (some allowed) f.properties), ?_,
    Text.pairwise_sortDistinct _, fun name => ?_⟩
  · rw [compileGated, gate_of_misnames h]
    rfl
  · rw [Text.mem_sortDistinct, mem_undefinedNames]

end Filter

end Catalog
