import Catalog.Patch.Operation
import Catalog.Proofs.Json.Container

/-!
# What operations mean

A segment addresses a member of an object or an element of a list. A position addresses the element
there when its container is a list and the member of that name when it is an object; a distance and
the end address a list only. An operation changes the value that its path leads to and fails when
the path leads nowhere: a value can be added to an object or inside the bounds of a list, and every
other change needs the addressed member or element to be there.
-/

namespace Catalog

namespace Segment

/-- The member of an object that a segment addresses. -/
def memberName? : Segment → Option String
  | .key name => some name
  | .position n => some (Nat.repr n)
  | _ => none

/-- The element of a list of this length that a segment addresses. -/
def element? (length : Nat) : Segment → Option Nat
  | .position n => if n < length then some n else none
  | .fromEnd k => if 0 < k ∧ k ≤ length then some (length - k) else none
  | _ => none

/-- The index at which a segment inserts into a list of this length. -/
def gap? (length : Nat) : Segment → Option Nat
  | .position n => if n ≤ length then some n else none
  | .fromEnd k => if k ≤ length then some (length - k) else none
  | .append => some length
  | .key _ => none

/-- An addressed element lies inside the bounds of its list. -/
theorem element?_lt {s : Segment} {length i : Nat} (h : s.element? length = some i) :
    i < length := by
  unfold element? at h
  split at h
  · next n =>
    obtain ⟨hn, hi⟩ := Option.ite_none_right_eq_some.1 h
    cases hi
    exact hn
  · next k =>
    obtain ⟨hk, hi⟩ := Option.ite_none_right_eq_some.1 h
    cases hi
    omega
  · simp at h

end Segment

namespace Json

/-- The value that a segment addresses in a container. -/
def child? (s : Segment) : Json → Option Json
  | .object members => do members.lookup (← s.memberName?)
  | .array items => do items[← s.element? items.length]?
  | _ => none

/-- The container with a value added where a segment points. -/
def addChild? (value : Json) (s : Segment) : Json → Option Json
  | .object members => do return .object (put (← s.memberName?) value members)
  | .array items => do return .array (items.insertIdx (← s.gap? items.length) value)
  | _ => none

/-- The container with another value where a segment points. -/
def replaceChild? (value : Json) (s : Segment) : Json → Option Json
  | .object members => do
    let name ← s.memberName?
    if (members.lookup name).isSome then return .object (put name value members) else none
  | .array items => do return .array (items.set (← s.element? items.length) value)
  | _ => none

/-- The container without the value that a segment addresses. -/
def removeChild? (s : Segment) : Json → Option Json
  | .object members => do
    let name ← s.memberName?
    if (members.lookup name).isSome then return .object (erase name members) else none
  | .array items => do return .array (items.eraseIdx (← s.element? items.length))
  | _ => none

/-- The value that segments lead to, from the document down. -/
def get? : List Segment → Json → Option Json
  | [], j => some j
  | s :: rest, j => do get? rest (← j.child? s)

/-- The document with a change made to the value that segments lead to. -/
def modify? (change : Json → Option Json) : List Segment → Json → Option Json
  | [], j => change j
  | s :: rest, j => do
    let value ← modify? change rest (← j.child? s)
    replaceChild? value s j

theorem get?_append (ss us : List Segment) (j : Json) :
    get? (ss ++ us) j = (get? ss j).bind (get? us) := by
  induction ss generalizing j with
  | nil => rfl
  | cons s ss ih => simp [get?, ih, Option.bind_assoc]

theorem modify?_append (f : Json → Option Json) (ss us : List Segment) (j : Json) :
    modify? f (ss ++ us) j = modify? (modify? f us) ss j := by
  induction ss generalizing j with
  | nil => rfl
  | cons s ss ih => simp [modify?, ih]

/-- Only what a change makes of the value that segments lead to counts. -/
theorem modify?_congr {f g : Json → Option Json} {ss : List Segment} {j v : Json}
    (hv : get? ss j = some v) (h : f v = g v) : modify? f ss j = modify? g ss j := by
  induction ss generalizing j with
  | nil =>
    obtain rfl : j = v := by simpa [get?] using hv
    exact h
  | cons s ss ih =>
    obtain ⟨w, hw, hv⟩ := Option.bind_eq_some_iff.1 hv
    simp [modify?, hw, ih hv]

/-- Nothing can be changed where segments lead nowhere. -/
theorem modify?_eq_none {f : Json → Option Json} {ss : List Segment} {j : Json}
    (h : get? ss j = none) : modify? f ss j = none := by
  induction ss generalizing j with
  | nil => simp [get?] at h
  | cons s ss ih =>
    rw [get?, Option.bind_eq_bind] at h
    cases hw : j.child? s with
    | none => simp [modify?, hw]
    | some w =>
      rw [hw, Option.bind_some] at h
      simp [modify?, hw, ih h]

/-- A change that fails on the value that segments lead to fails altogether. -/
theorem modify?_eq_none_of_get? {f : Json → Option Json} {ss : List Segment} {j v : Json}
    (hv : get? ss j = some v) (h : f v = none) : modify? f ss j = none := by
  induction ss generalizing j with
  | nil =>
    obtain rfl : j = v := by simpa [get?] using hv
    exact h
  | cons s ss ih =>
    obtain ⟨w, hw, hv⟩ := Option.bind_eq_some_iff.1 hv
    simp [modify?, hw, ih hv]

@[simp] theorem child?_key (name : String) (members : List (String × Json)) :
    child? (.key name) (.object members) = members.lookup name := rfl

@[simp] theorem child?_position (n : Nat) (members : List (String × Json)) :
    child? (.position n) (.object members) = members.lookup (Nat.repr n) := rfl

theorem child?_position_array (n : Nat) (items : List Json) :
    child? (.position n) (.array items) = items[n]? := by
  by_cases h : n < items.length
  · simp [child?, Segment.element?, h]
  · simp [child?, Segment.element?, h]

/-- A distance reaches the element that far before the end of a list, if the list is long enough. -/
theorem child?_fromEnd_eq_some {k : Nat} {j v : Json} (h : child? (.fromEnd k) j = some v) :
    ∃ items, j = .array items ∧ 0 < k ∧ k ≤ items.length ∧ items[items.length - k]? = some v := by
  cases j with
  | array items =>
    rw [child?, Option.bind_eq_bind, Option.bind_eq_some_iff] at h
    obtain ⟨i, hi, hv⟩ := h
    rw [Segment.element?, Option.ite_none_right_eq_some, Option.some.injEq] at hi
    obtain ⟨⟨hk, hle⟩, rfl⟩ := hi
    exact ⟨items, rfl, hk, hle, hv⟩
  | _ => simp [child?, Segment.memberName?] at h

theorem child?_append (j : Json) : child? .append j = none := by
  cases j <;> rfl

/-- An object or a list that lacks what a segment addresses: the segment names no member or one that
is absent, and it addresses no element. -/
theorem child?_eq_none {s : Segment} {j : Json} (h : j.child? s = none) :
    (∀ members, j = .object members → ∀ name, s.memberName? = some name →
      members.lookup name = none) ∧
      ∀ items, j = .array items → s.element? items.length = none := by
  constructor
  · rintro members rfl name hn
    simpa [child?, hn] using h
  · rintro items rfl
    cases hi : s.element? items.length with
    | none => rfl
    | some i =>
      have hlt := Segment.element?_lt hi
      simp [child?, hi, hlt] at h

/-- What cannot be addressed cannot be replaced. -/
theorem replaceChild?_eq_none {s : Segment} {j : Json} (h : j.child? s = none) (v : Json) :
    replaceChild? v s j = none := by
  obtain ⟨hmember, helement⟩ := child?_eq_none h
  cases j with
  | object members =>
    cases hn : s.memberName? with
    | none => simp [replaceChild?, hn]
    | some name => simp [replaceChild?, hn, hmember members rfl name hn]
  | array items => simp [replaceChild?, helement items rfl]
  | _ => rfl

/-- What cannot be addressed cannot be removed. -/
theorem removeChild?_eq_none {s : Segment} {j : Json} (h : j.child? s = none) :
    removeChild? s j = none := by
  obtain ⟨hmember, helement⟩ := child?_eq_none h
  cases j with
  | object members =>
    cases hn : s.memberName? with
    | none => simp [removeChild?, hn]
    | some name => simp [removeChild?, hn, hmember members rfl name hn]
  | array items => simp [removeChild?, helement items rfl]
  | _ => rfl

end Json

/-- A pointer leads to a member or an element of its container. -/
theorem Pointer.get?_segments (p : Pointer) (j : Json) :
    j.get? p.segments = (j.get? p.parents).bind (Json.child? p.key) := by
  rw [segments, Json.get?_append]
  simp [Json.get?]

namespace Patch

/-- The document with a value added at a pointer. -/
def addAt? (p : Pointer) (value document : Json) : Option Json :=
  document.modify? (Json.addChild? value p.key) p.parents

/-- The document without the value at a pointer. -/
def removeAt? (p : Pointer) (document : Json) : Option Json :=
  document.modify? (Json.removeChild? p.key) p.parents

/-- The document after an edit, unless the edit fails. -/
def Edit.apply (equal : Json → Json → Bool) : Edit → Json → Option Json
  | .add p value, document => addAt? p value document
  | .replace p value, document => document.modify? (Json.replaceChild? value p.key) p.parents
  | .remove p, document => removeAt? p document
  | .test p value, document => do
    if equal (← document.get? p.segments) value then return document else none
  | .copy source p, document => do addAt? p (← document.get? source.segments) document
  | .move source p, document => do
    let value ← document.get? source.segments
    addAt? p value (← removeAt? source document)

/-- The document after an operation. It fails without the operand of its kind, and where one of its
texts is no pointer. -/
def Operation.apply (equal : Json → Json → Bool) (o : Operation) (document : Json) :
    Option Json := do
  let p ← (Pointer.resolve o.path).toOption
  match o.kind with
  | .add => (Edit.add p (← o.value)).apply equal document
  | .replace => (Edit.replace p (← o.value)).apply equal document
  | .remove => (Edit.remove p).apply equal document
  | .test => (Edit.test p (← o.value)).apply equal document
  | .copy =>
    let source ← (Pointer.resolve (← o.source)).toOption
    (Edit.copy source p).apply equal document
  | .move =>
    let source ← (Pointer.resolve (← o.source)).toOption
    (Edit.move source p).apply equal document

end Patch

end Catalog
