import Catalog.Proofs.Json.Container
import Catalog.Proofs.Json.Leaves

/-!
# Merging objects

A merge patch says what becomes of the members of an object: one that is set to null goes, an object
is merged into the member, and any other value takes its place. A patch whose objects all hold
something is determined by its leaves. Merging is then the same as writing the leaves one after the
other, where writing a leaf makes the objects that are missing above it. What stands beside the path
of a leaf is not changed by writing it.
-/

namespace Catalog.Json

section

variable {name other : String} {value : Json} {members : List (String × Json)}

@[simp] theorem lookup_put_self (name : String) (value : Json) (members : List (String × Json)) :
    (put name value members).lookup name = some value := by
  induction members with
  | nil => simp [put]
  | cons m members ih =>
    rw [put]
    split
    · next h => simp [h]
    · next h => rw [List.lookup_cons, beq_false_of_ne (Ne.symm h), ih]

theorem lookup_put_of_ne (h : other ≠ name) :
    (put name value members).lookup other = members.lookup other := by
  induction members with
  | nil => simp [put, List.lookup_cons, beq_false_of_ne h]
  | cons m members ih =>
    rw [put]
    split
    · next hm => rw [List.lookup_cons, List.lookup_cons, hm, beq_false_of_ne h]
    · next hm => rw [List.lookup_cons, List.lookup_cons, ih]

/-- Only the last of two values that are put at a name counts. -/
theorem put_put (name : String) (v w : Json) (members : List (String × Json)) :
    put name w (put name v members) = put name w members := by
  induction members with
  | nil => simp [put]
  | cons m members ih =>
    by_cases h : m.1 = name
    · simp [put, h]
    · simp [put, h, ih]

/-- Putting the value that a name has changes nothing. -/
theorem put_of_lookup (h : members.lookup name = some value) : put name value members = members := by
  induction members with
  | nil => simp at h
  | cons m members ih =>
    rw [List.lookup_cons] at h
    by_cases hm : m.1 = name
    · have hv : m.2 = value := by simpa [hm] using h
      rw [put, if_pos hm, ← hv]
    · rw [beq_false_of_ne (Ne.symm hm)] at h
      rw [put, if_neg hm, ih h]

theorem lookup_erase_of_ne (h : other ≠ name) :
    (erase name members).lookup other = members.lookup other := by
  induction members with
  | nil => rfl
  | cons m members ih =>
    rw [erase] at ih
    by_cases hm : m.1 = name
    · rw [erase, List.filter_cons_of_neg (by simp [hm]), ih, List.lookup_cons, hm,
        beq_false_of_ne h]
    · rw [erase, List.filter_cons_of_pos (by simp [hm]), List.lookup_cons, List.lookup_cons, ih]

end

/-- The members of an object. Anything else has none. -/
def membersOf : Json → List (String × Json)
  | .object members => members
  | _ => []

@[simp] theorem membersOf_object (members : List (String × Json)) :
    membersOf (.object members) = members := rfl

theorem eq_object_of_lookup {j w : Json} {name : String} (h : j.membersOf.lookup name = some w) :
    j = .object j.membersOf := by
  cases j with
  | object members => rfl
  | _ => simp [membersOf] at h

/-- The value that names lead to, from one object into the next. -/
def getIn? : List String → Json → Option Json
  | [], j => some j
  | name :: path, j => (j.membersOf.lookup name).bind (getIn? path)

theorem getIn?_append (path below : List String) (j : Json) :
    getIn? (path ++ below) j = (getIn? path j).bind (getIn? below) := by
  induction path generalizing j with
  | nil => rfl
  | cons name path ih =>
    rw [List.cons_append, getIn?, getIn?, Option.bind_assoc]
    exact congrArg _ (funext ih)

/-- Names lead to an object. -/
def IsOpen (path : List String) (j : Json) : Prop := ∃ members, j.getIn? path = some (.object members)

/-- Update the members of the object that names lead to. On the way, everything that is no object is
taken for an empty one. -/
def updateIn (f : List (String × Json) → List (String × Json)) : List String → Json → Json
  | [], j => .object (f j.membersOf)
  | name :: path, j =>
    .object (put name (updateIn f path ((j.membersOf.lookup name).getD .null)) j.membersOf)

section

variable {f g : List (String × Json) → List (String × Json)} {path : List String} {j : Json}

theorem updateIn_updateIn (f g : List (String × Json) → List (String × Json)) (path : List String)
    (j : Json) : updateIn g path (updateIn f path j) = updateIn (g ∘ f) path j := by
  induction path generalizing j with
  | nil => rfl
  | cons name path ih =>
    simp only [updateIn, membersOf_object, lookup_put_self, Option.getD_some, put_put, ih]

theorem updateIn_append (f : List (String × Json) → List (String × Json))
    (path below : List String) (j : Json) :
    updateIn f (path ++ below) j =
      updateIn (fun members => (updateIn f below (.object members)).membersOf) path j := by
  induction path generalizing j with
  | nil =>
    cases below with
    | nil => rfl
    | cons name below => rfl
  | cons name path ih => rw [List.cons_append, updateIn, updateIn, ih]

/-- An update below objects that were opened before. -/
theorem updateIn_append_updateIn_id (f : List (String × Json) → List (String × Json))
    (path below : List String) (j : Json) :
    updateIn f (path ++ below) (updateIn id path j) = updateIn f (path ++ below) j := by
  rw [updateIn_append, updateIn_updateIn, updateIn_append]
  rfl

/-- Only what an update makes of the members that it is about counts. -/
theorem updateIn_congr {members : List (String × Json)}
    (h : j.getIn? path = some (.object members)) (hfg : f members = g members) :
    updateIn f path j = updateIn g path j := by
  induction path generalizing j with
  | nil =>
    obtain rfl : j = .object members := by simpa [getIn?] using h
    simp [updateIn, hfg]
  | cons name path ih =>
    obtain ⟨w, hw, h⟩ := Option.bind_eq_some_iff.1 h
    rw [updateIn, updateIn, hw, Option.getD_some, ih h]

/-- Nothing is opened where everything is open. -/
theorem updateIn_id_of_isOpen (h : IsOpen path j) : updateIn id path j = j := by
  obtain ⟨members, h⟩ := h
  induction path generalizing j with
  | nil =>
    obtain rfl : j = .object members := by simpa [getIn?] using h
    rfl
  | cons name path ih =>
    obtain ⟨w, hw, h⟩ := Option.bind_eq_some_iff.1 h
    rw [updateIn, hw, Option.getD_some, ih h, put_of_lookup hw, ← eq_object_of_lookup hw]

/-- An update opens every object on its way. -/
theorem isOpen_updateIn_above (f : List (String × Json) → List (String × Json))
    {above : List String} (h : path <+: above) (j : Json) : IsOpen path (updateIn f above j) := by
  induction above generalizing path j with
  | nil =>
    obtain rfl : path = [] := List.prefix_nil.1 h
    exact ⟨_, rfl⟩
  | cons name above ih =>
    rcases List.prefix_cons_iff.1 h with rfl | ⟨rest, rfl, hrest⟩
    · exact ⟨_, rfl⟩
    · obtain ⟨members, hopen⟩ := ih hrest ((j.membersOf.lookup name).getD .null)
      exact ⟨members, by simp [updateIn, getIn?, hopen]⟩

/-- An update changes nothing that is not on its way and that it leaves in its object. -/
theorem getIn?_updateIn {above : List String} (h : ¬path <+: above)
    (hf : ∀ name rest, path = above ++ name :: rest →
      ∀ members, (f members).lookup name = members.lookup name) :
    (updateIn f above j).getIn? path = j.getIn? path := by
  induction above generalizing path j with
  | nil =>
    cases path with
    | nil => exact absurd (List.prefix_refl []) h
    | cons name rest => simp [updateIn, getIn?, hf name rest rfl]
  | cons n above ih =>
    cases path with
    | nil => exact absurd List.nil_prefix h
    | cons name rest =>
      by_cases hn : name = n
      · subst hn
        have hrest : ¬rest <+: above := fun hp => h ((List.prefix_cons_inj name).2 hp)
        have hget := ih (j := (j.membersOf.lookup name).getD .null) hrest
          fun m r hm => hf m r (by rw [hm, List.cons_append])
        rw [updateIn, getIn?, getIn?, membersOf_object, lookup_put_self, Option.bind_some, hget]
        cases j.membersOf.lookup name with
        | some w => rfl
        | none =>
          cases rest with
          | nil => exact absurd List.nil_prefix hrest
          | cons m rest => rfl
      · rw [updateIn, getIn?, getIn?, membersOf_object, lookup_put_of_ne hn]

/-- Names lead through objects as far as they lead anywhere. -/
def Admits (path : List String) (j : Json) : Prop :=
  ∀ before, before <+: path → ∀ w, j.getIn? before = some w → ∃ members, w = .object members

/-- Names still lead through objects after an update, unless it takes them out of theirs. -/
theorem Admits.updateIn {above : List String} (h : Admits path j)
    (hf : ∀ name rest, path = above ++ name :: rest →
      ∀ members, (f members).lookup name = members.lookup name) :
    Admits path (updateIn f above j) := by
  intro before hbefore w hw
  by_cases hp : before <+: above
  · obtain ⟨members, hm⟩ := isOpen_updateIn_above f hp j
    rw [hm, Option.some.injEq] at hw
    exact ⟨members, hw.symm⟩
  · rw [getIn?_updateIn hp] at hw
    · exact h before hbefore w hw
    · rintro name rest rfl
      obtain ⟨below, rfl⟩ := hbefore
      exact hf name (rest ++ below) (by simp)

/-- What is open stays open, unless the update takes it out of its object. -/
theorem IsOpen.updateIn {above : List String} (h : IsOpen path j)
    (hf : ∀ name rest, path = above ++ name :: rest →
      ∀ members, (f members).lookup name = members.lookup name) :
    IsOpen path (updateIn f above j) := by
  by_cases hp : path <+: above
  · exact isOpen_updateIn_above f hp j
  · obtain ⟨members, hm⟩ := h
    exact ⟨members, by rw [getIn?_updateIn hp hf, hm]⟩

end

mutual

/-- A patch merged into a value. -/
def merge : Json → Json → Json
  | .object patch, target => .object (mergeInto patch target.membersOf)
  | patch, _ => patch

/-- The members of a patch merged into those of an object, one after the other. -/
def mergeInto : List (String × Json) → List (String × Json) → List (String × Json)
  | [], members => members
  | (name, .null) :: rest, members => mergeInto rest (erase name members)
  | (name, value) :: rest, members =>
    mergeInto rest (put name (merge value ((members.lookup name).getD .null)) members)

end

mutual

/-- No name stands twice in an object, and no object is empty. -/
def Tidy : Json → Prop
  | .object members => members ≠ [] ∧ TidyMembers members
  | _ => True

/-- No name stands twice among the members, and their values are tidy. -/
def TidyMembers : List (String × Json) → Prop
  | [] => True
  | (name, value) :: rest => name ∉ rest.map Prod.fst ∧ Tidy value ∧ TidyMembers rest

end

namespace Leaf

/-- What a leaf makes of the members of its object: a null takes its name away. -/
def store (name : String) : Json → List (String × Json) → List (String × Json)
  | .null, members => erase name members
  | value, members => put name value members

/-- Write a leaf. -/
def write (l : Leaf) (j : Json) : Json := updateIn (store l.name l.value) l.above j

theorem lookup_store_of_ne {name other : String} (h : other ≠ name) (value : Json)
    (members : List (String × Json)) :
    (store name value members).lookup other = members.lookup other := by
  unfold store
  split
  · exact lookup_erase_of_ne h
  · exact lookup_put_of_ne h

end Leaf

/-- Writing a leaf keeps the members beside it. -/
theorem Leaf.lookup_store {l : Leaf} {q : List String} (h : ¬l.path <+: q) (name : String)
    (rest : List String) (hq : q = l.above ++ name :: rest) (members : List (String × Json)) :
    (store l.name l.value members).lookup name = members.lookup name := by
  apply lookup_store_of_ne
  rintro rfl
  exact h ⟨rest, by simp [hq, path]⟩

/-- Writing a leaf changes nothing that stands neither at it, nor above or below it. -/
theorem Leaf.getIn?_write {l : Leaf} {q : List String} (hbelow : ¬l.path <+: q)
    (habove : ¬q <+: l.path) (j : Json) : (l.write j).getIn? q = j.getIn? q :=
  getIn?_updateIn (fun hp => habove (hp.trans (List.prefix_append _ _))) (lookup_store hbelow)

/-- Writing leaves changes nothing that stands neither at one of them, nor above or below it. -/
theorem getIn?_foldl_write {ls : List Leaf} {q : List String}
    (h : ∀ l ∈ ls, ¬l.path <+: q ∧ ¬q <+: l.path) (j : Json) :
    (ls.foldl (fun j l => l.write j) j).getIn? q = j.getIn? q := by
  induction ls generalizing j with
  | nil => rfl
  | cons l ls ih =>
    obtain ⟨⟨hbelow, habove⟩, hls⟩ := List.forall_mem_cons.1 h
    rw [List.foldl_cons, ih hls, Leaf.getIn?_write hbelow habove]

/-- A leaf can be written as a script does: objects lead to it as far as anything does, and what it
removes is there. -/
structure Leaf.Fits (l : Leaf) (j : Json) : Prop where
  admits : j.Admits l.above
  present : l.value = .null → (j.getIn? l.path).isSome

/-- A leaf can still be written after one that is apart from it. -/
theorem Leaf.Fits.write {l q : Leaf} {j : Json} (h : q.Fits j) (hapart : l.Apart q) :
    q.Fits (l.write j) := by
  constructor
  · exact h.admits.updateIn
      (lookup_store fun hp => hapart.1 (hp.trans (List.prefix_append _ _)))
  · intro hnull
    rw [getIn?_write hapart.1 hapart.2]
    exact h.present hnull

mutual

/-- No object of a tidy value holds a name twice. -/
theorem Tidy.namesOnce {value : Json} (h : Tidy value) : NamesOnce value :=
  match value with
  | .object _ => TidyMembers.namesOnce h.2
  | .null | .bool _ | .number _ | .text _ | .array _ => .scalar fun members => by simp

/-- Nor does an object of tidy members. -/
theorem TidyMembers.namesOnce {members : List (String × Json)} (h : TidyMembers members) :
    NamesOnce (.object members) :=
  match members with
  | [] => .object List.nodup_nil (by simp)
  | (name, value) :: rest => by
    have hrest := TidyMembers.namesOnce h.2.2
    refine .object (List.nodup_cons.2 ⟨h.1, hrest.nodup⟩) (List.forall_mem_cons.2 ⟨?_, ?_⟩)
    · exact Tidy.namesOnce h.2.1
    · exact fun m hm => hrest.of_mem hm

end

/-- The leaves of tidy members are apart. -/
theorem pairwise_apart_leavesBelow {above : List String} {members : List (String × Json)}
    (h : TidyMembers members) : (leavesBelow above members).Pairwise Leaf.Apart :=
  (TidyMembers.namesOnce h).pairwise_apart above

/-- A member that is merged changes its own name alone. -/
theorem mergeInto_cons (name : String) (value : Json) (rest members : List (String × Json)) :
    mergeInto ((name, value) :: rest) members = mergeInto rest (mergeInto [(name, value)] members) := by
  cases value <;> simp [mergeInto]

mutual

/-- Writing the leaves of a member one after the other merges it. -/
theorem foldl_write_leavesOf {above : List String} {name : String} {value : Json}
    (h : Tidy value) (j : Json) :
    (leavesOf above name value).foldl (fun j l => l.write j) j =
      updateIn (mergeInto [(name, value)]) above j :=
  match value with
  | .object patch => by
    rw [leavesOf, foldl_write_leavesBelow h.1 h.2, updateIn_append]
    rfl
  | .null => by rfl
  | .bool _ => by rfl
  | .number _ => by rfl
  | .text _ => by rfl
  | .array _ => by rfl

/-- Writing the leaves of members one after the other merges the members. -/
theorem foldl_write_leavesBelow {above : List String} {patch : List (String × Json)}
    (hne : patch ≠ []) (h : TidyMembers patch) (j : Json) :
    (leavesBelow above patch).foldl (fun j l => l.write j) j = updateIn (mergeInto patch) above j :=
  match patch with
  | [] => absurd rfl hne
  | [(name, value)] => by
    rw [leavesBelow, leavesBelow, List.append_nil]
    exact foldl_write_leavesOf h.2.1 j
  | (name, value) :: next :: rest => by
    rw [leavesBelow, List.foldl_append, foldl_write_leavesOf h.2.1,
      foldl_write_leavesBelow (List.cons_ne_nil _ _) h.2.2, updateIn_updateIn]
    congr 1
    funext members
    exact (mergeInto_cons name value (next :: rest) members).symm

end

/-- Merging a patch into an object is writing its leaves one after the other. -/
theorem foldl_write_leaves {patch : List (String × Json)} (h : TidyMembers patch)
    (members : List (String × Json)) :
    (leaves patch).foldl (fun j l => l.write j) (.object members) =
      merge (.object patch) (.object members) := by
  by_cases hne : patch = []
  · subst hne
    simp [leaves, leavesBelow, merge, mergeInto]
  · rw [leaves, foldl_write_leavesBelow hne h, merge]
    rfl

end Catalog.Json
