import Catalog.Proofs.Patch.Merging

/-!
# Operations of a merge patch

A merge patch becomes one operation for each of its leaves, in the order in which the leaves are
written. Cutting the path of an operation at its slashes and reading the escapes of the pieces gives
the names that lead to the leaf, whatever characters these names hold. Where no object of the patch
holds a name twice, the operations do not interfere: no path leads to the place of another one or
through it.
-/

namespace Catalog

open Json Json.Leaf Segment

namespace Pointer

theorem escapeChars_injective : Function.Injective escapeChars := by
  intro cs ds h
  have hread := congrArg unescapeChars? h
  rwa [unescapeChars?_escapeChars, unescapeChars?_escapeChars, Option.some.injEq] at hread

/-- The written form of a name. -/
def written (name : String) : List Char := escapeChars name.toList

theorem written_injective : Function.Injective written :=
  escapeChars_injective.comp fun _ _ h => String.toList_inj.1 h

/-- Names are read back from their written forms. -/
theorem mapM_unescape_written (names : List String) :
    ((names.map written).mapM fun piece => unescape (String.ofList piece)) = .ok names := by
  rw [Outcome.mapM_eq_ok_iff, List.forall₂_map_left_iff, List.forall₂_same]
  intro name _
  rw [unescape, String.toList_ofList, written, unescapeChars?_escapeChars]
  exact congrArg Except.ok String.ofList_toList

end Pointer

namespace Patch.Operation

/-- The pieces of the path between its slashes. -/
def pieces (o : Operation) : List (List Char) := o.path.toList.splitOn '/'

/-- Neither of two operations has its path at the path of the other one or below it. -/
def Apart (a b : Operation) : Prop :=
  a.path ≠ b.path ∧ ¬a.pieces <+: b.pieces ∧ ¬b.pieces <+: a.pieces

end Patch.Operation

namespace Json.Leaf

/-- The operation carries out a leaf: the pieces of its path, behind the first slash, read as the
names that lead to the leaf. It is a removal without a value when the leaf is null, and otherwise an
addition of just the value of the leaf. -/
structure Becomes (l : Leaf) (o : Patch.Operation) : Prop where
  names : ∃ pieces, o.pieces = [] :: pieces ∧
    (pieces.mapM fun piece => Pointer.unescape (String.ofList piece)) = .ok l.path
  removes : l.value = .null → o = ⟨.remove, o.path, none, none⟩
  adds : l.value ≠ .null → o = ⟨.add, o.path, some l.value, none⟩

theorem path_operation (l : Leaf) : l.operation.path = l.pointer.text := by
  unfold operation
  split
  · rfl
  · rfl

/-- The pieces of the path of an operation are the names of its leaf, each in its written form. -/
theorem pieces_operation (l : Leaf) : l.operation.pieces = [] :: l.path.map Pointer.written := by
  rw [Patch.Operation.pieces, path_operation, pointer, Pointer.ofKeys, pointerText,
    String.toList_ofList, Pointer.splitOn_pointerChars, keys, List.map_map]
  rfl

/-- A leaf becomes its operation. -/
theorem becomes_operation (l : Leaf) : l.Becomes l.operation := by
  refine ⟨⟨_, l.pieces_operation, Pointer.mapM_unescape_written l.path⟩, fun h => ?_, fun h => ?_⟩
  · rw [operation_of_null h]
    rfl
  · rw [operation_of_ne h]
    rfl

/-- Operations lead through each other exactly where their leaves do. -/
theorem pieces_prefix_iff (a b : Leaf) :
    a.operation.pieces <+: b.operation.pieces ↔ a.path <+: b.path := by
  rw [pieces_operation, pieces_operation, List.prefix_cons_inj,
    List.prefix_map_iff_of_injective Pointer.written_injective]

/-- Leaves that are apart become operations that are apart. -/
theorem Apart.operation {a b : Leaf} (h : a.Apart b) : a.operation.Apart b.operation := by
  refine ⟨fun heq => ?_, fun hp => h.1 ((pieces_prefix_iff a b).1 hp),
    fun hp => h.2 ((pieces_prefix_iff b a).1 hp)⟩
  have hpieces : a.operation.pieces = b.operation.pieces := by
    rw [Patch.Operation.pieces, heq]
    rfl
  exact h.1 ((pieces_prefix_iff a b).1 (hpieces ▸ List.prefix_refl _))

end Json.Leaf

namespace Patch

/-- A merge patch becomes one operation for each value that names lead to and that is no object. The
operations stand in the order in which these values are written. Where no name stands twice in an
object, no value is taken twice, and the operations are apart. Only an object is a merge patch. -/
theorem ofMerge_leaves :
    (∀ patch : List (String × Json), ∃ ls operations, ofMerge (.object patch) = .ok operations ∧
      List.Forall₂ Leaf.Becomes ls operations ∧
      (∀ l : Leaf, l ∈ ls ↔ LeafAt (.object patch) l.path l.value) ∧
      (ls.Pairwise fun a b => Earlier (.object patch) a.path b.path) ∧
      (NamesOnce (.object patch) → ls.Nodup ∧ operations.Pairwise Operation.Apart)) ∧
    ∀ patch : Json, patch.IsScalar → ofMerge patch = .error (.path "" .notObject) := by
  constructor
  · intro patch
    refine ⟨leaves patch, _, ofMerge_object patch, ?_, mem_leaves patch,
      pairwise_earlier_leaves patch, fun h => ?_⟩
    · rw [List.forall₂_map_right_iff, List.forall₂_same]
      exact fun l _ => l.becomes_operation
    · have hapart : (leaves patch).Pairwise Leaf.Apart := h.pairwise_apart []
      refine ⟨hapart.imp ?_, ?_⟩
      · rintro a b hab rfl
        exact hab.1 (List.prefix_refl _)
      · rw [List.pairwise_map]
        exact hapart.imp Leaf.Apart.operation
  · intro patch h
    cases patch with
    | object members => exact absurd rfl (h members)
    | _ => rfl

/-- Names may be empty or hold the characters that are escaped in a path. -/
theorem ofMerge_leaves_escaped :
    NamesOnce (.object [("", .object [("a/b", .null), ("~", .array [])]), ("c", .object [])]) ∧
      ∃ operations, ofMerge
          (.object [("", .object [("a/b", .null), ("~", .array [])]), ("c", .object [])]) =
        .ok operations ∧
      operations = [⟨.remove, "//a~1b", none, none⟩, ⟨.add, "//~0", some (.array []), none⟩] ∧
      operations.Pairwise Operation.Apart := by
  have hnames : NamesOnce
      (.object [("", .object [("a/b", .null), ("~", .array [])]), ("c", .object [])]) := by
    refine .object (by decide) (List.forall_mem_cons.2 ⟨.object (by decide) ?_,
      List.forall_mem_singleton.2 (.object List.nodup_nil (by simp))⟩)
    exact List.forall_mem_cons.2 ⟨.scalar fun members => by simp,
      List.forall_mem_singleton.2 (.scalar fun members => by simp)⟩
  obtain ⟨ls, operations, hoperations, -, -, -, hapart⟩ := ofMerge_leaves.1
    [("", .object [("a/b", .null), ("~", .array [])]), ("c", .object [])]
  refine ⟨hnames, operations, hoperations, ?_, (hapart hnames).2⟩
  cases hoperations
  rfl

end Patch

end Catalog
