import Catalog.Patch.Operation
import Catalog.Proofs.Pointer.Resolved

/-!
# The edits of operations

Checking an operation resolves all of its pointers. Where a member or an element has to be there
already, the pointer to it does not end at the end of a list, which holds nothing.
-/

namespace Catalog.Patch

namespace Edit

/-- What an edit does. -/
def kind : Edit → Kind
  | .add _ _ => .add
  | .replace _ _ => .replace
  | .remove _ => .remove
  | .test _ _ => .test
  | .copy _ _ => .copy
  | .move _ _ => .move

/-- The pointers whose member has to be there already. -/
def required : Edit → List Pointer
  | .add _ _ => []
  | .replace p _ => [p]
  | .remove p => [p]
  | .test p _ => [p]
  | .copy source _ => [source]
  | .move source _ => [source]

/-- The pointers where a value is put in. -/
def inserted : Edit → List Pointer
  | .add p _ => [p]
  | .copy _ p => [p]
  | .move _ p => [p]
  | _ => []

/-- The pointers of an edit. -/
def pointers (edit : Edit) : List Pointer := edit.required ++ edit.inserted

/-- What checking an operation promises about its edit. -/
structure Resolved (edit : Edit) : Prop where
  required : ∀ p ∈ edit.required, p.Resolved ∧ p.key ≠ .append
  inserted : ∀ p ∈ edit.inserted, p.Resolved

theorem Resolved.pointers {edit : Edit} (h : edit.Resolved) : ∀ p ∈ edit.pointers, p.Resolved := by
  intro p hp
  rcases List.mem_append.1 hp with hp | hp
  · exact (h.required p hp).1
  · exact h.inserted p hp

end Edit

namespace Operation

/-- The path of an operation that is checked. -/
theorem target_eq_ok {o : Operation} {p : Pointer} (h : o.target = .ok p) :
    Pointer.resolve o.path = .ok p ∧ (o.kind.needsTarget = true → p.key ≠ .append) := by
  obtain ⟨q, hq, h⟩ := Outcome.bind_eq_ok_iff.1 h
  split at h
  · simp [throw, throwThe, MonadExceptOf.throw, bind, Except.bind] at h
  · next hend =>
    cases h
    refine ⟨hq, fun hneeds hkey => hend ?_⟩
    simp [Pointer.isAppend, hkey, hneeds]

/-- The source of an operation that is checked. -/
theorem resolveSource_eq_ok {text : String} {p : Pointer} (h : resolveSource text = .ok p) :
    Pointer.resolve text = .ok p ∧ p.key ≠ .append := by
  obtain ⟨q, hq, h⟩ := Outcome.bind_eq_ok_iff.1 h
  split at h
  · simp [throw, throwThe, MonadExceptOf.throw, bind, Except.bind] at h
  · next hend =>
    cases h
    refine ⟨hq, fun hkey => hend ?_⟩
    simp [Pointer.isAppend, hkey]

/-- What checking an operation does: the operands that its kind needs are present, and its pointers
are resolved. -/
inductive Checked (o : Operation) : Edit → Prop where
  | add {p : Pointer} {value : Json} (hkind : o.kind = .add) (hvalue : o.needValue = .ok value)
    (hp : o.target = .ok p) : Checked o (.add p value)
  | replace {p : Pointer} {value : Json} (hkind : o.kind = .replace)
    (hvalue : o.needValue = .ok value) (hp : o.target = .ok p) : Checked o (.replace p value)
  | test {p : Pointer} {value : Json} (hkind : o.kind = .test) (hvalue : o.needValue = .ok value)
    (hp : o.target = .ok p) : Checked o (.test p value)
  | remove {p : Pointer} (hkind : o.kind = .remove) (hp : o.target = .ok p) :
    Checked o (.remove p)
  | copy {text : String} {source p : Pointer} (hkind : o.kind = .copy)
    (htext : o.needSource = .ok text) (hsource : resolveSource text = .ok source)
    (hp : o.target = .ok p) : Checked o (.copy source p)
  | move {text : String} {source p : Pointer} (hkind : o.kind = .move)
    (htext : o.needSource = .ok text) (hsource : resolveSource text = .ok source)
    (hp : o.target = .ok p)
    (hchild : ¬(p.isWithin source && source.segments.length < p.segments.length) = true) :
    Checked o (.move source p)

theorem checked_of_resolve {o : Operation} {edit : Edit} (h : o.resolve = .ok edit) :
    o.Checked edit := by
  unfold resolve at h
  split at h
  · next hk =>
    obtain ⟨value, hv, h⟩ := Outcome.bind_eq_ok_iff.1 h
    obtain ⟨p, hp, h⟩ := Outcome.bind_eq_ok_iff.1 h
    cases h
    exact .add hk hv hp
  · next hk =>
    obtain ⟨value, hv, h⟩ := Outcome.bind_eq_ok_iff.1 h
    obtain ⟨p, hp, h⟩ := Outcome.bind_eq_ok_iff.1 h
    cases h
    exact .replace hk hv hp
  · next hk =>
    obtain ⟨value, hv, h⟩ := Outcome.bind_eq_ok_iff.1 h
    obtain ⟨p, hp, h⟩ := Outcome.bind_eq_ok_iff.1 h
    cases h
    exact .test hk hv hp
  · next hk =>
    obtain ⟨p, hp, h⟩ := Outcome.bind_eq_ok_iff.1 h
    cases h
    exact .remove hk hp
  · next hk =>
    obtain ⟨text, ht, h⟩ := Outcome.bind_eq_ok_iff.1 h
    obtain ⟨p, hp, h⟩ := Outcome.bind_eq_ok_iff.1 h
    obtain ⟨source, hs, h⟩ := Outcome.bind_eq_ok_iff.1 h
    cases h
    exact .copy hk ht hs hp
  · next hk =>
    obtain ⟨text, ht, h⟩ := Outcome.bind_eq_ok_iff.1 h
    obtain ⟨p, hp, h⟩ := Outcome.bind_eq_ok_iff.1 h
    obtain ⟨source, hs, h⟩ := Outcome.bind_eq_ok_iff.1 h
    split at h
    · simp [throw, throwThe, MonadExceptOf.throw, bind, Except.bind] at h
    · next hchild =>
      cases h
      exact .move hk ht hs hp hchild

/-- The edit of an operation is of its kind and keeps the promises of checking it. -/
theorem resolve_eq_ok {o : Operation} {edit : Edit} (h : o.resolve = .ok edit) :
    edit.Resolved ∧ edit.kind = o.kind := by
  have hpath {p : Pointer} (hp : o.target = .ok p) : p.Resolved :=
    (Pointer.resolve_eq_ok (target_eq_ok hp).1).2
  have hrequired (k : Kind) (hk : o.kind = k) (hneeds : k.needsTarget = true) {p : Pointer}
      (hp : o.target = .ok p) : p.Resolved ∧ p.key ≠ .append :=
    ⟨hpath hp, (target_eq_ok hp).2 (hk ▸ hneeds)⟩
  have hsource {text : String} {p : Pointer} (hp : resolveSource text = .ok p) :
      p.Resolved ∧ p.key ≠ .append :=
    ⟨(Pointer.resolve_eq_ok (resolveSource_eq_ok hp).1).2, (resolveSource_eq_ok hp).2⟩
  cases checked_of_resolve h with
  | add hk _ hp =>
    exact ⟨⟨by simp [Edit.required], by simpa [Edit.inserted] using hpath hp⟩, hk.symm⟩
  | replace hk _ hp =>
    exact ⟨⟨by simpa [Edit.required] using hrequired _ hk rfl hp, by simp [Edit.inserted]⟩, hk.symm⟩
  | test hk _ hp =>
    exact ⟨⟨by simpa [Edit.required] using hrequired _ hk rfl hp, by simp [Edit.inserted]⟩, hk.symm⟩
  | remove hk hp =>
    exact ⟨⟨by simpa [Edit.required] using hrequired _ hk rfl hp, by simp [Edit.inserted]⟩, hk.symm⟩
  | copy hk _ hs hp =>
    exact ⟨⟨by simpa [Edit.required] using hsource hs, by simpa [Edit.inserted] using hpath hp⟩,
      hk.symm⟩
  | move hk _ hs hp _ =>
    exact ⟨⟨by simpa [Edit.required] using hsource hs, by simpa [Edit.inserted] using hpath hp⟩,
      hk.symm⟩

/-- The pointer is read from the path of an operation, or from the source when its kind needs one. -/
inductive Names (o : Operation) (p : Pointer) : Prop where
  | path (h : Pointer.resolve o.path = .ok p)
  | source {text : String} (hkind : o.kind = .copy ∨ o.kind = .move) (htext : o.source = some text)
    (h : Pointer.resolve text = .ok p)

theorem value_of_needValue {o : Operation} {value : Json} (h : o.needValue = .ok value) :
    o.value = some value := by
  unfold needValue at h
  split at h
  · next v hv =>
    cases h
    exact hv
  · simp at h

theorem source_of_needSource {o : Operation} {text : String} (h : o.needSource = .ok text) :
    o.source = some text := by
  unfold needSource at h
  split at h
  · next s hs =>
    cases h
    exact hs
  · simp at h

/-- The pointers of an edit are read from the texts of its operation. -/
theorem names_of_resolve {o : Operation} {edit : Edit} (h : o.resolve = .ok edit) :
    ∀ p ∈ edit.pointers, o.Names p := by
  intro p hmem
  have hpath {q : Pointer} (hq : o.target = .ok q) : o.Names q := .path (target_eq_ok hq).1
  cases checked_of_resolve h with
  | add _ _ hp => exact List.mem_singleton.1 hmem ▸ hpath hp
  | replace _ _ hp => exact List.mem_singleton.1 hmem ▸ hpath hp
  | test _ _ hp => exact List.mem_singleton.1 hmem ▸ hpath hp
  | remove _ hp => exact List.mem_singleton.1 hmem ▸ hpath hp
  | copy hk ht hs hp =>
    rcases List.mem_cons.1 hmem with rfl | hmem
    · exact .source (.inl hk) (source_of_needSource ht) (resolveSource_eq_ok hs).1
    · exact List.mem_singleton.1 hmem ▸ hpath hp
  | move hk ht hs hp =>
    rcases List.mem_cons.1 hmem with rfl | hmem
    · exact .source (.inr hk) (source_of_needSource ht) (resolveSource_eq_ok hs).1
    · exact List.mem_singleton.1 hmem ▸ hpath hp

/-- The edits of operations keep the promises of checking them. -/
theorem resolved_of_mapM {operations : List Operation} {edits : List Edit}
    (h : operations.mapM resolve = .ok edits) {edit : Edit} (he : edit ∈ edits) :
    edit.Resolved := by
  obtain ⟨o, -, ho⟩ := Outcome.exists_of_mem_mapM h he
  exact (resolve_eq_ok ho).1

end Operation

end Catalog.Patch
