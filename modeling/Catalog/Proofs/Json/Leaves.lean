import Catalog.Json.Basic
import Mathlib.Data.List.Infix

/-!
# Leaves of an object

A leaf is a value that is no object, below the names of the objects that lead to it. The leaves of
an object are listed depth first. So exactly the values that names lead to and that are no objects
are listed, and of two leaves the first is the one whose name stands first where their paths part.
When no object holds a name twice, neither of two leaves stands at the other one or below it.
-/

namespace Catalog.Json

/-- The outermost value of a patch that is no object, below the names of objects. -/
structure Leaf where
  /-- The names that lead to the object that holds the leaf. -/
  above : List String
  name : String
  value : Json

mutual

/-- The leaves of the member with a name, in the order in which they are written. -/
def leavesOf (above : List String) (name : String) : Json → List Leaf
  | .object members => leavesBelow (above ++ [name]) members
  | value => [⟨above, name, value⟩]

/-- The leaves of members, depth first. -/
def leavesBelow (above : List String) : List (String × Json) → List Leaf
  | [] => []
  | (name, value) :: rest => leavesOf above name value ++ leavesBelow above rest

end

/-- The leaves of a patch. -/
def leaves (patch : List (String × Json)) : List Leaf := leavesBelow [] patch

/-- The names that lead to the leaf. -/
def Leaf.path (l : Leaf) : List String := l.above ++ [l.name]

/-- Neither of two leaves stands at the other one or below it. -/
def Leaf.Apart (p q : Leaf) : Prop := ¬p.path <+: q.path ∧ ¬q.path <+: p.path

/-- The value is no object. -/
def IsScalar (value : Json) : Prop := ∀ members, value ≠ .object members

/-- Names lead from one object into the next, and in the end to a value that is no object. -/
inductive LeafAt : Json → List String → Json → Prop where
  | here {value : Json} (h : value.IsScalar) : LeafAt value [] value
  | inside {members : List (String × Json)} {name : String} {value leaf : Json}
    {path : List String} (hmem : (name, value) ∈ members) (h : LeafAt value path leaf) :
    LeafAt (.object members) (name :: path) leaf

/-- Of two paths into a value the first one is written earlier: where they part, its member stands
before the one of the second path. -/
inductive Earlier : Json → List String → List String → Prop where
  | part {members : List (String × Json)} {m n : String × Json} {p q : List String}
    (h : [m, n].Sublist members) : Earlier (.object members) (m.1 :: p) (n.1 :: q)
  | inside {members : List (String × Json)} {name : String} {value : Json} {p q : List String}
    (hmem : (name, value) ∈ members) (h : Earlier value p q) :
    Earlier (.object members) (name :: p) (name :: q)

/-- No object of a value holds a name twice. What stands in arrays does not count. -/
inductive NamesOnce : Json → Prop where
  | scalar {value : Json} (h : value.IsScalar) : NamesOnce value
  | object {members : List (String × Json)} (hnames : (members.map Prod.fst).Nodup)
    (hvalues : ∀ m ∈ members, NamesOnce m.2) : NamesOnce (.object members)

section

variable {above path : List String} {name : String} {value leaf : Json}
  {members : List (String × Json)} {l : Leaf}

theorem leavesOf_of_isScalar (h : value.IsScalar) :
    leavesOf above name value = [⟨above, name, value⟩] := by
  cases value with
  | object members => exact absurd rfl (h members)
  | _ => rfl

/-- Nothing but itself is at a value that is no object. -/
theorem leafAt_iff_of_isScalar (h : value.IsScalar) :
    LeafAt value path leaf ↔ path = [] ∧ leaf = value := by
  constructor
  · intro hat
    cases hat with
    | here => exact ⟨rfl, rfl⟩
    | inside => exact absurd rfl (h _)
  · rintro ⟨rfl, rfl⟩
    exact .here h

/-- A leaf of an object is a leaf of one of its members. -/
theorem leafAt_object_iff :
    LeafAt (.object members) path leaf ↔
      ∃ m ∈ members, ∃ p, path = m.1 :: p ∧ LeafAt m.2 p leaf := by
  constructor
  · intro h
    cases h with
    | here h => exact absurd rfl (h members)
    | inside hmem h => exact ⟨_, hmem, _, rfl, h⟩
  · rintro ⟨m, hmem, p, rfl, h⟩
    exact .inside hmem h

mutual

/-- The leaves of a member are the leaves of its value, below the name of the member. -/
theorem mem_leavesOf (above : List String) (name : String) (value : Json) :
    l ∈ leavesOf above name value ↔
      ∃ path, l.path = above ++ name :: path ∧ LeafAt value path l.value :=
  match value with
  | .object members => by
    rw [leavesOf, mem_leavesBelow (above ++ [name]) members]
    simp only [List.append_assoc, List.singleton_append]
  | .null | .bool _ | .number _ | .text _ | .array _ => by
    have hscalar {value : Json} (h : value.IsScalar) : l ∈ leavesOf above name value ↔
        ∃ path, l.path = above ++ name :: path ∧ LeafAt value path l.value := by
      simp only [leavesOf_of_isScalar h, List.mem_singleton, leafAt_iff_of_isScalar h]
      constructor
      · rintro rfl
        exact ⟨[], rfl, rfl, rfl⟩
      · rintro ⟨path, hpath, rfl, hvalue⟩
        obtain ⟨habove, hname⟩ := List.append_inj' hpath rfl
        cases l
        simp_all
    exact hscalar fun members => by simp

/-- The leaves of members are the leaves of the object that holds these members. -/
theorem mem_leavesBelow (above : List String) (members : List (String × Json)) :
    l ∈ leavesBelow above members ↔
      ∃ path, l.path = above ++ path ∧ LeafAt (.object members) path l.value :=
  match members with
  | [] => by simp [leavesBelow, leafAt_object_iff]
  | (name, value) :: rest => by
    rw [leavesBelow, List.mem_append, mem_leavesOf above name value, mem_leavesBelow above rest]
    simp only [leafAt_object_iff, List.mem_cons, exists_eq_or_imp]
    constructor
    · rintro (⟨p, hpath, h⟩ | ⟨path, hpath, h⟩)
      · exact ⟨name :: p, hpath, .inl ⟨p, rfl, h⟩⟩
      · exact ⟨path, hpath, .inr h⟩
    · rintro ⟨path, hpath, ⟨p, rfl, h⟩ | h⟩
      · exact .inl ⟨p, hpath, h⟩
      · exact .inr ⟨path, hpath, h⟩

end

/-- Exactly the values that names lead to and that are no objects are leaves. -/
theorem mem_leaves (patch : List (String × Json)) (l : Leaf) :
    l ∈ leaves patch ↔ LeafAt (.object patch) l.path l.value := by
  rw [leaves, mem_leavesBelow [] patch]
  simp

/-- Two leaves stand below names, and the first one is written earlier there. -/
def Leaf.EarlierBelow (above : List String) (j : Json) (a b : Leaf) : Prop :=
  ∃ p q, a.path = above ++ p ∧ b.path = above ++ q ∧ Earlier j p q

/-- Earlier among the members behind the first one is earlier in the object. -/
theorem Earlier.cons {p q : List String} (h : Earlier (.object members) p q)
    (m : String × Json) : Earlier (.object (m :: members)) p q := by
  cases h with
  | part h => exact .part (h.cons m)
  | inside hmem h => exact .inside (List.mem_cons_of_mem m hmem) h

mutual

/-- The leaves of a member are listed in the order in which they are written. -/
theorem pairwise_earlier_leavesOf (above : List String) (name : String) (value : Json) :
    (leavesOf above name value).Pairwise (Leaf.EarlierBelow (above ++ [name]) value) :=
  match value with
  | .object members => pairwise_earlier_leavesBelow (above ++ [name]) members
  | .null | .bool _ | .number _ | .text _ | .array _ => List.pairwise_singleton _ _

/-- The leaves of members are listed in the order in which they are written. -/
theorem pairwise_earlier_leavesBelow (above : List String) (members : List (String × Json)) :
    (leavesBelow above members).Pairwise (Leaf.EarlierBelow above (.object members)) :=
  match members with
  | [] => .nil
  | (name, value) :: rest => by
    rw [leavesBelow, List.pairwise_append]
    refine ⟨?_, ?_, ?_⟩
    · refine (pairwise_earlier_leavesOf above name value).imp ?_
      rintro a b ⟨p, q, ha, hb, h⟩
      exact ⟨name :: p, name :: q, by simpa using ha, by simpa using hb,
        .inside (List.mem_cons_self ..) h⟩
    · refine (pairwise_earlier_leavesBelow above rest).imp ?_
      rintro a b ⟨p, q, ha, hb, h⟩
      exact ⟨p, q, ha, hb, h.cons (name, value)⟩
    · intro a ha b hb
      obtain ⟨p, hp, -⟩ := (mem_leavesOf above name value).1 ha
      obtain ⟨path, hpath, hat⟩ := (mem_leavesBelow above rest).1 hb
      obtain ⟨m, hmem, q, rfl, -⟩ := leafAt_object_iff.1 hat
      exact ⟨name :: p, m.1 :: q, hp, hpath,
        .part ((List.singleton_sublist.2 hmem).cons_cons (name, value))⟩

end

/-- The leaves of a patch are listed in the order in which they are written. -/
theorem pairwise_earlier_leaves (patch : List (String × Json)) :
    (leaves patch).Pairwise fun a b => Earlier (.object patch) a.path b.path := by
  refine (pairwise_earlier_leavesBelow [] patch).imp ?_
  rintro a b ⟨p, q, ha, hb, h⟩
  rw [ha, hb]
  exact h

theorem NamesOnce.of_mem (h : NamesOnce (.object members)) (hmem : (name, value) ∈ members) :
    NamesOnce value := by
  cases h with
  | scalar h => exact absurd rfl (h members)
  | object _ hvalues => exact hvalues _ hmem

theorem NamesOnce.nodup (h : NamesOnce (.object members)) : (members.map Prod.fst).Nodup := by
  cases h with
  | scalar h => exact absurd rfl (h members)
  | object hnames _ => exact hnames

/-- Where no name stands twice, a path does not lead on from one that is written earlier, nor the
other way round. -/
theorem Earlier.apart {j : Json} {p q : List String} (h : Earlier j p q) (hj : NamesOnce j) :
    ¬p <+: q ∧ ¬q <+: p := by
  induction h with
  | @part members m n p q h =>
    have hnodup : [m.1, n.1].Nodup := (h.map Prod.fst).nodup hj.nodup
    have hne : m.1 ≠ n.1 := by simpa using hnodup
    exact ⟨fun hp => hne (List.cons_prefix_cons.1 hp).1,
      fun hp => hne (List.cons_prefix_cons.1 hp).1.symm⟩
  | inside hmem _ ih =>
    obtain ⟨hleft, hright⟩ := ih (hj.of_mem hmem)
    exact ⟨fun hp => hleft (List.cons_prefix_cons.1 hp).2,
      fun hp => hright (List.cons_prefix_cons.1 hp).2⟩

/-- Where no name stands twice, the leaves of members are apart. -/
theorem NamesOnce.pairwise_apart (h : NamesOnce (.object members)) (above : List String) :
    (leavesBelow above members).Pairwise Leaf.Apart := by
  refine (pairwise_earlier_leavesBelow above members).imp ?_
  rintro a b ⟨p, q, ha, hb, hearlier⟩
  rw [Leaf.Apart, ha, hb, List.prefix_append_right_inj, List.prefix_append_right_inj]
  exact hearlier.apart h

end

end Catalog.Json
