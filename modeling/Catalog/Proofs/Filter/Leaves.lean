import Catalog.Proofs.Filter.Reading

/-!
# The leaves of a filter

The leaves of a filter are listed from left to right. Every leaf is a node of the filter, and names
one property, except for a connective without children, which is a leaf as well.
-/

namespace Catalog

namespace Filter

mutual

/-- The leaves from left to right. -/
def leaves : Filter → List Filter
  | .connective op [] => [.connective op []]
  | .connective _ (f :: rest) => leavesEach (f :: rest)
  | leaf => [leaf]

/-- The leaves of several filters. -/
def leavesEach : List Filter → List Filter
  | [] => []
  | f :: rest => f.leaves ++ leavesEach rest

end

/-- The property that a leaf names. -/
def subject? : Filter → Option String
  | .connective _ _ => none
  | .comparison _ property _ => some property
  | .like property _ => some property
  | .between property _ _ => some property
  | .oneOf property _ => some property
  | .spatial _ property _ => some property

mutual

/-- A leaf is a node. -/
theorem exists_hasNode_of_mem_leaves {leaf : Filter} : ∀ {f : Filter}, leaf ∈ f.leaves →
    ∃ n, f.HasNode n leaf
  | .connective op [], h => by
    obtain rfl := List.mem_singleton.1 h
    exact ⟨0, .root _⟩
  | .connective op (f :: rest), h => by
    obtain ⟨child, hchild, n, hn⟩ := exists_hasNode_of_mem_leavesEach (f :: rest) h
    exact ⟨n + 1, .child hchild hn⟩
  | .comparison .., h | .like .., h | .between .., h | .oneOf .., h | .spatial .., h => by
    obtain rfl := List.mem_singleton.1 h
    exact ⟨0, .root _⟩

theorem exists_hasNode_of_mem_leavesEach {leaf : Filter} : ∀ (fs : List Filter),
    leaf ∈ leavesEach fs → ∃ child ∈ fs, ∃ n, child.HasNode n leaf
  | f :: rest, h => by
    rcases List.mem_append.1 h with h | h
    · exact ⟨f, List.mem_cons_self .., exists_hasNode_of_mem_leaves h⟩
    · obtain ⟨child, hchild, hnode⟩ := exists_hasNode_of_mem_leavesEach rest h
      exact ⟨child, List.mem_cons_of_mem f hchild, hnode⟩

end

mutual

/-- A leaf has no children. -/
theorem ne_connective_of_mem_leaves {leaf : Filter} : ∀ {f : Filter}, leaf ∈ f.leaves →
    ∀ op g rest, leaf ≠ .connective op (g :: rest)
  | .connective _ [], h => by
    obtain rfl := List.mem_singleton.1 h
    simp
  | .connective _ (f :: rest), h => ne_connective_of_mem_leavesEach (f :: rest) h
  | .comparison .., h | .like .., h | .between .., h | .oneOf .., h | .spatial .., h => by
    obtain rfl := List.mem_singleton.1 h
    simp

theorem ne_connective_of_mem_leavesEach {leaf : Filter} : ∀ (fs : List Filter),
    leaf ∈ leavesEach fs → ∀ op g rest, leaf ≠ .connective op (g :: rest)
  | f :: rest, h => by
    rcases List.mem_append.1 h with h | h
    · exact ne_connective_of_mem_leaves h
    · exact ne_connective_of_mem_leavesEach rest h

end

mutual

/-- The properties of the leaves are those that the leaves name. -/
theorem filterMap_subject?_leaves : ∀ f : Filter, f.leaves.filterMap subject? = f.leafProperties
  | .connective _ [] => rfl
  | .connective _ (f :: rest) => filterMap_subject?_leavesEach (f :: rest)
  | .comparison .. | .like .. | .between .. | .oneOf .. | .spatial .. => rfl

theorem filterMap_subject?_leavesEach : ∀ fs : List Filter,
    (leavesEach fs).filterMap subject? = leafPropertiesAll fs
  | [] => rfl
  | f :: rest => by
    rw [leavesEach, List.filterMap_append, filterMap_subject?_leaves f,
      filterMap_subject?_leavesEach rest, leafPropertiesAll]

end

end Filter

end Catalog
