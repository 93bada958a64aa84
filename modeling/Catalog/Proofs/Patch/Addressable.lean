import Catalog.Proofs.Patch.Flattening
import Catalog.Proofs.Patch.Requirements

/-!
# Which merge patches compile

The names in a merge patch are data, but the script is compiled from the paths that they are written
as. Three things keep a leaf from being addressed by its path: a line break in one of its names, the
end of a list above it, and the end of a list where something is to be removed. No other name is in
the way. So a merge patch compiles exactly when all of its leaves can be addressed, and otherwise
the error names the path of the first leaf that cannot be.
-/

namespace Catalog

open Json Segment

namespace Patch.Operation

variable {o : Operation}

/-- The target of an operation is its path, unless that is the end of a list where an element is
needed. -/
theorem target_of_resolve {p : Pointer} (h : Pointer.resolve o.path = .ok p) :
    o.target = if p.key = .append ∧ o.kind.needsTarget = true then
      .error (.path o.path (.endTarget o.kind.name)) else .ok p := by
  rw [target, h]
  simp only [bind, Except.bind, Pointer.isAppend, Bool.and_eq_true, beq_iff_eq]
  split
  · rfl
  · rfl

theorem target_of_resolve_error {e : CompileError} (h : Pointer.resolve o.path = .error e) :
    o.target = .error e := by
  rw [target, h]
  rfl

end Patch.Operation

namespace Json.Leaf

/-- The leaf can be addressed by its path. Its names stand on single lines, none of those above it
is the end of a list, and nothing is removed from the end of a list. -/
structure Addressable (l : Leaf) : Prop where
  singleLine : ∀ name ∈ l.path, Text.SingleLine name
  above : "-" ∉ l.above
  name : l.value = .null → l.name ≠ "-"

/-- What keeps a leaf from being addressed, in the order in which it is found. -/
inductive Refused (l : Leaf) : PathFault → Prop where
  | lineBreak {name : String} (hmem : name ∈ l.path) (h : ¬Text.SingleLine name) :
    Refused l .lineBreak
  | endInside (hline : ∀ name ∈ l.path, Text.SingleLine name) (h : "-" ∈ l.above) :
    Refused l .endInside
  | endTarget (hline : ∀ name ∈ l.path, Text.SingleLine name) (habove : "-" ∉ l.above)
    (hvalue : l.value = .null) (hname : l.name = "-") :
    Refused l (.endTarget Patch.Kind.remove.name)

variable {l : Leaf}

theorem addressable_or_refused (l : Leaf) : l.Addressable ∨ ∃ fault, l.Refused fault := by
  by_cases hline : ∀ name ∈ l.path, Text.SingleLine name
  · by_cases habove : "-" ∈ l.above
    · exact .inr ⟨_, .endInside hline habove⟩
    · by_cases hname : l.value = .null ∧ l.name = "-"
      · exact .inr ⟨_, .endTarget hline habove hname.1 hname.2⟩
      · exact .inl ⟨hline, habove, fun hvalue h => hname ⟨hvalue, h⟩⟩
  · rw [not_forall₂] at hline
    obtain ⟨name, hmem, h⟩ := hline
    exact .inr ⟨_, .lineBreak hmem h⟩

/-- What the path of a leaf resolves to. -/
theorem resolve_pointer (l : Leaf) :
    Pointer.resolve l.pointer.text =
      if ∀ name ∈ l.path, Text.SingleLine name then
        if "-" ∈ l.above then .error (.path l.pointer.text .endInside)
        else .ok ⟨l.pointer.text, l.above.map ofText, ofText l.name⟩
      else .error (.path l.pointer.text .lineBreak) := by
  have hne : l.path.map ofText ≠ [] := by simp [path]
  have hread : ∀ s ∈ l.path.map ofText, s.IsRead := by
    rw [List.forall_mem_map]
    exact fun name _ => isRead_ofText name
  have htext : l.pointer.text = pointerText (l.path.map ofText) := pointerText_keys l.path
  have hline : Text.SingleLine (pointerText (l.path.map ofText)) ↔
      ∀ name ∈ l.path, Text.SingleLine name := by
    rw [Pointer.singleLine_pointerText_iff, List.forall_mem_map]
    simp only [text_ofText]
  have hparents : (l.path.map ofText).dropLast = l.above.map ofText := by simp [path]
  have hkey : (l.path.map ofText).getLast hne = ofText l.name := by simp [path]
  have habove : Segment.append ∈ l.above.map ofText ↔ "-" ∈ l.above := by
    simp [ofText_eq_append_iff]
  rw [htext, Pointer.resolve_pointerText hne hread]
  simp only [hline, hparents, habove, hkey]

variable {fault : PathFault}

/-- The operation of a leaf is valid when its target is. -/
theorem resolve_operation_eq_map (l : Leaf) :
    ∃ edit : Pointer → Patch.Edit, l.operation.resolve = l.operation.target.map edit := by
  by_cases hvalue : l.value = .null
  · rw [operation_of_null hvalue]
    exact ⟨.remove, rfl⟩
  · rw [operation_of_ne hvalue]
    exact ⟨fun p => .add p l.value, rfl⟩

theorem needsTarget_operation_iff (l : Leaf) :
    l.operation.kind.needsTarget = true ↔ l.value = .null := by
  by_cases hvalue : l.value = .null
  · rw [operation_of_null hvalue]
    exact iff_of_true rfl hvalue
  · rw [operation_of_ne hvalue]
    exact iff_of_false Bool.false_ne_true hvalue

/-- A leaf that can be addressed becomes an edit. -/
theorem Addressable.exists_edit (h : l.Addressable) : ∃ edit, l.operation.resolve = .ok edit := by
  have hresolve := resolve_pointer l
  rw [if_pos h.singleLine, if_neg h.above, ← path_operation] at hresolve
  have hkey : ¬(ofText l.name = .append ∧ l.operation.kind.needsTarget = true) := by
    rw [ofText_eq_append_iff, needsTarget_operation_iff]
    exact fun hend => h.name hend.2 hend.1
  obtain ⟨edit, hedit⟩ := resolve_operation_eq_map l
  rw [hedit, Patch.Operation.target_of_resolve hresolve, if_neg hkey]
  exact ⟨_, rfl⟩

/-- A leaf that is refused becomes no edit, and the error tells why. -/
theorem Refused.resolve_operation (h : l.Refused fault) :
    l.operation.resolve = .error (.path l.pointer.text fault) := by
  have hresolve := resolve_pointer l
  obtain ⟨edit, hedit⟩ := resolve_operation_eq_map l
  suffices htarget : l.operation.target = .error (.path l.pointer.text fault) by
    rw [hedit, htarget]
    rfl
  cases h with
  | lineBreak hmem h =>
    rw [if_neg fun hline => h (hline _ hmem), ← path_operation] at hresolve
    rw [Patch.Operation.target_of_resolve_error hresolve, path_operation]
  | endInside hline h =>
    rw [if_pos hline, if_pos h, ← path_operation] at hresolve
    rw [Patch.Operation.target_of_resolve_error hresolve, path_operation]
  | endTarget hline habove hvalue hname =>
    rw [if_pos hline, if_neg habove, ← path_operation] at hresolve
    have hkind : l.operation.kind = .remove := by
      rw [operation_of_null hvalue]
      rfl
    rw [Patch.Operation.target_of_resolve hresolve, if_pos, path_operation, hkind]
    exact ⟨(ofText_eq_append_iff l.name).2 hname, (needsTarget_operation_iff l).2 hvalue⟩

/-- A leaf becomes an edit exactly when it can be addressed. -/
theorem exists_edit_iff (l : Leaf) : (∃ edit, l.operation.resolve = .ok edit) ↔ l.Addressable := by
  refine ⟨?_, Addressable.exists_edit⟩
  rintro ⟨edit, hedit⟩
  rcases addressable_or_refused l with h | ⟨fault, h⟩
  · exact h
  · rw [h.resolve_operation] at hedit
    cases hedit

/-- Otherwise its error tells what it is refused for. -/
theorem resolve_operation_eq_error_iff (l : Leaf) (e : CompileError) :
    l.operation.resolve = .error e ↔ ∃ fault, l.Refused fault ∧ e = .path l.pointer.text fault := by
  constructor
  · intro h
    rcases addressable_or_refused l with haddress | ⟨fault, hfault⟩
    · obtain ⟨edit, hedit⟩ := haddress.exists_edit
      rw [hedit] at h
      cases h
    · rw [hfault.resolve_operation, Except.error.injEq] at h
      exact ⟨fault, hfault, h.symm⟩
  · rintro ⟨fault, hfault, rfl⟩
    exact hfault.resolve_operation

end Json.Leaf

namespace Patch

variable {create : Bool} {lang : String} {patch : List (String × Json)}

/-- A merge patch is compiled by checking the operations of its leaves. -/
theorem compileMerge_object : compileMerge create lang (.object patch) =
    compile create lang ((leaves patch).map Leaf.operation) := by
  rw [compileMerge, ofMerge_object]
  rfl

/-- A merge patch compiles exactly when every value that names lead to and that is no object can be
addressed by these names. Otherwise the error is that of the first such value which cannot be, and
names its path. -/
theorem compileMerge_by_leaves (create : Bool) (lang : String) (patch : List (String × Json)) :
    ((∃ s, compileMerge create lang (.object patch) = .ok s) ↔
      ∀ l : Leaf, LeafAt (.object patch) l.path l.value → l.Addressable) ∧
    ∀ e, compileMerge create lang (.object patch) = .error e ↔
      ∃ before l after, leaves patch = before ++ l :: after ∧ (∀ q ∈ before, q.Addressable) ∧
        ∃ fault, l.Refused fault ∧ e = .path l.pointer.text fault := by
  constructor
  · rw [compileMerge_object, exists_compile_iff, Outcome.exists_mapM_eq_ok_iff, List.forall_mem_map]
    simp only [Leaf.exists_edit_iff, mem_leaves]
  · intro e
    rw [compileMerge_object, compile_eq_error_iff, List.mapM_map, Outcome.mapM_eq_error_iff]
    simp only [Function.comp_apply, Leaf.exists_edit_iff, Leaf.resolve_operation_eq_error_iff]

/-- A value may be added to the end of a list. Nothing is removed from there, and this is found
before the line break in a name behind it. -/
theorem compileMerge_by_leaves_end :
    (∃ s, compileMerge true defaultLang
      (.object [("a", .object [("-", .bool true)]), ("~", .null)]) = .ok s) ∧
    compileMerge true defaultLang (.object [("a", .object [("-", .bool true)]),
      ("b", .object [("-", .null)]), ("c\n", .null)]) =
        .error (.path "/b/-" (.endTarget "remove")) := by
  have hadd : Leaf.Addressable ⟨["a"], "-", .bool true⟩ := ⟨by decide, by decide, by simp⟩
  have hremove : Leaf.Addressable ⟨[], "~", .null⟩ := ⟨by decide, by decide, by simp⟩
  constructor
  · refine (compileMerge_by_leaves _ _ _).1.2 fun l hl => ?_
    have hmem : l ∈ [(⟨["a"], "-", .bool true⟩ : Leaf), ⟨[], "~", .null⟩] := (mem_leaves _ l).2 hl
    simp only [List.mem_cons, List.not_mem_nil, or_false] at hmem
    rcases hmem with rfl | rfl
    · exact hadd
    · exact hremove
  · refine ((compileMerge_by_leaves _ _ _).2 _).2 ⟨[⟨["a"], "-", .bool true⟩],
      ⟨["b"], "-", .null⟩, [⟨[], "c\n", .null⟩], rfl, List.forall_mem_singleton.2 hadd, _,
      .endTarget ?_ ?_ rfl rfl, rfl⟩
    · decide
    · decide

end Patch

end Catalog
