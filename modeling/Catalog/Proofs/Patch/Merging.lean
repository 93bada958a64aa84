import Catalog.Proofs.Patch.Creation
import Catalog.Proofs.Patch.Parameters
import Catalog.Proofs.Patch.Preservation

/-!
# Scripts of merge patches

A merge patch becomes one operation for each of its leaves, in their order. The script that makes
missing containers writes the leaves one after the other: a removal is guarded by tests that are
met, and an addition opens the objects above it, except where they are known to be open. So the
script leaves the document that merging the patch gives.
-/

namespace Catalog

open Catalog.Script Segment

namespace Json.Leaf

/-- The pointer to a leaf. -/
def pointer (l : Leaf) : Pointer := .ofKeys l.above l.name

/-- The operation that a leaf becomes. -/
def operation (l : Leaf) : Patch.Operation :=
  match l.value with
  | .null => .ofRemove l.pointer.text
  | value => .ofAdd l.pointer.text value

/-- The edit that a leaf becomes. -/
def edit (l : Leaf) : Patch.Edit :=
  match l.value with
  | .null => .remove l.pointer
  | value => .add l.pointer value

/-- All names that lead to the leaf are plain. -/
def IsPlain (l : Leaf) : Prop := ∀ n ∈ l.path, IsPlainName n

theorem operation_of_ne {l : Leaf} (h : l.value ≠ .null) :
    l.operation = .ofAdd l.pointer.text l.value := by
  unfold operation
  split
  · next hnull => exact absurd hnull h
  · rfl

theorem edit_of_ne {l : Leaf} (h : l.value ≠ .null) : l.edit = .add l.pointer l.value := by
  unfold edit
  split
  · next hnull => exact absurd hnull h
  · rfl

theorem operation_of_null {l : Leaf} (h : l.value = .null) :
    l.operation = .ofRemove l.pointer.text := by
  rw [operation, h]

theorem edit_of_null {l : Leaf} (h : l.value = .null) : l.edit = .remove l.pointer := by
  rw [edit, h]

theorem IsPlain.resolved {l : Leaf} (h : l.IsPlain) : l.pointer.Resolved := Pointer.resolved_ofKeys h

/-- Checking the operation of a plain leaf gives its edit. -/
theorem IsPlain.resolve_operation {l : Leaf} (h : l.IsPlain) : l.operation.resolve = .ok l.edit := by
  have htarget {o : Patch.Operation} (ho : o.path = l.pointer.text) : o.target = .ok l.pointer := by
    rw [Patch.Operation.target, ho, h.resolved.resolve_text]
    rfl
  by_cases hnull : l.value = .null
  · rw [operation_of_null hnull, edit_of_null hnull, Patch.Operation.resolve]
    simp only [Patch.Operation.ofRemove, htarget]
    rfl
  · rw [operation_of_ne hnull, edit_of_ne hnull, Patch.Operation.resolve]
    simp only [Patch.Operation.ofAdd, htarget]
    rfl

end Json.Leaf

open Json Json.Leaf

namespace Patch

mutual

/-- The operations of a value at a pointer are those of its leaves. -/
theorem mergeValue_eq (above : List String) (name : String) (value : Json) :
    mergeValue (pointerText (keys (above ++ [name]))) value =
      (leavesOf above name value).map Leaf.operation :=
  match value with
  | .object members => mergeMembers_eq (above ++ [name]) members
  | .null | .bool _ | .number _ | .text _ | .array _ => rfl

/-- The operations of members below a pointer are those of their leaves. -/
theorem mergeMembers_eq (above : List String) (members : List (String × Json)) :
    mergeMembers (pointerText (keys above)) members =
      (leavesBelow above members).map Leaf.operation :=
  match members with
  | [] => rfl
  | (name, value) :: rest => by
    rw [mergeMembers, leavesBelow, List.map_append, pointerText_append_key,
      mergeValue_eq above name value, mergeMembers_eq above rest]

end

/-- The operations of a merge patch are those of its leaves. -/
theorem ofMerge_object (patch : List (String × Json)) :
    ofMerge (.object patch) = .ok ((leaves patch).map Leaf.operation) :=
  congrArg Except.ok (mergeMembers_eq [] patch)

/-- The leaves of a patch whose names are plain become edits. -/
theorem mapM_resolve_operation {ls : List Leaf} (h : ∀ l ∈ ls, l.IsPlain) :
    (ls.map Leaf.operation).mapM Operation.resolve = .ok (ls.map Leaf.edit) := by
  rw [Outcome.mapM_eq_ok_iff, List.forall₂_map_left_iff, List.forall₂_map_right_iff,
    List.forall₂_same]
  exact fun l hl => (h l hl).resolve_operation

variable {d : Dialect} {σ : State} {l : Leaf}

/-- The guards of a member that is there are all met. -/
theorem exec_of_mem_existing {p : Pointer} (hp : p.Resolved) (hk : p.key ≠ .append)
    (h : (σ.document.get? p.segments).isSome) {e : Emission} (he : e ∈ Emission.existing p) :
    e.statement.exec d σ = some σ := by
  rw [Emission.existing_eq hp, Emission.mem_existenceFrom] at he
  obtain ⟨us, s, rest, hsplit, rfl⟩ := he
  have hmem : s ∈ p.segments := by simp [hsplit]
  have hreached : (σ.document.get? (us ++ [s])).isSome := by
    rw [hsplit, List.append_cons, Json.get?_append] at h
    exact Option.isSome_of_isSome_bind h
  rw [List.nil_append, Emission.exec_presence (hp.isRead s hmem) (hp.ne_append hk hmem),
    if_pos hreached]

namespace Emission.ForcesOpen

variable {tops : List (List String)} {before : List Emission} {j : Json}

theorem cons (h : ForcesOpen tops before j) (top : List String) :
    ForcesOpen (top :: tops) before j := by
  intro line hline
  obtain ⟨above, name, hw, htext, hopen, t, ht, hway⟩ := h line hline
  exact ⟨above, name, hw, htext, hopen, t, List.mem_cons_of_mem _ ht, hway⟩

/-- Effects put nothing in force. -/
theorem append_effect (h : ForcesOpen tops before j) (s : Statement) :
    ForcesOpen tops (before ++ [⟨.effect, s⟩]) j := by
  intro line hline
  rw [inForce_append_singleton] at hline
  rcases hline.2 with ⟨hrole, -⟩ | hline
  · cases hrole
  · exact h line hline

/-- Behind a removal nothing is in force. -/
theorem append_removal (tops : List (List String)) (before : List Emission) (s : Statement)
    (j : Json) : ForcesOpen tops (before ++ [⟨.removal, s⟩]) j := by
  intro line hline
  rw [inForce_append_singleton] at hline
  exact absurd rfl hline.1

/-- What is in force before a leaf is written is still open behind it, as long as the leaf does not
stand on the way to it. -/
theorem write (h : ForcesOpen tops before j) (hapart : ∀ top ∈ tops, ¬l.path <+: top) :
    ForcesOpen tops before (l.write j) := by
  intro line hline
  obtain ⟨above, name, hw, htext, hopen, top, htop, hway⟩ := h line hline
  refine ⟨above, name, hw, htext, ?_, top, htop, hway⟩
  exact hopen.updateIn (lookup_store fun hp => hapart top htop (hp.trans hway))

end Emission.ForcesOpen

/-- Adding the value of a leaf to an open object writes the leaf. -/
theorem addAt?_pointer (hvalue : l.value ≠ .null) {j : Json} (h : j.IsOpen l.above) :
    addAt? l.pointer l.value j = some (l.write j) := by
  obtain ⟨members, hmembers⟩ := h
  refine modify?_keys hmembers ?_
  have hput : store l.name l.value members = put l.name l.value members := by
    unfold store
    split
    · next hnull => exact absurd hnull hvalue
    · rfl
  rw [hput]
  rfl

/-- Removing what is at a null leaf writes the leaf. -/
theorem removeAt?_pointer (hvalue : l.value = .null) {j w : Json}
    {members : List (String × Json)} (h : j.getIn? l.above = some (.object members))
    (hlookup : members.lookup l.name = some w) : removeAt? l.pointer j = some (l.write j) := by
  refine modify?_keys h ?_
  rw [hvalue]
  simp [pointer, Pointer.ofKeys, removeChild?, memberName?, hlookup, store]

/-- The assignment of an addition writes its leaf into an open object. -/
theorem exec_assignment_leaf (σ : State) (hvalue : l.value ≠ .null) (hopen : σ.document.IsOpen l.above)
    {index : Nat} (hbound : l.edit.IsBound index σ) :
    (assignment l.pointer .insert (.param (Edit.localName l.pointer index))).exec d σ =
      some { σ with document := l.write σ.document } := by
  have hadd := addAt?_pointer hvalue hopen
  obtain ⟨members, hmembers⟩ := hopen
  have hget : σ.document.get? l.pointer.parents = some (.object members) :=
    (get?_keys l.above _).trans hmembers
  have hv : (Expr.param (Edit.localName l.pointer index)).eval d σ = some l.value :=
    hbound _ _ (by rw [edit_of_ne hvalue, Edit.parameter?])
  rw [exec_assignment_insert hget (by simp [pointer, Pointer.ofKeys, isIndex]) hv, hadd]
  rfl

/-- The statements of an addition write its leaf. -/
theorem exec_addition (hplain : l.IsPlain) (hvalue : l.value ≠ .null) {tops : List (List String)}
    {before : List Emission} (hforce : Emission.ForcesOpen tops before σ.document)
    (hapart : ∀ top ∈ tops, ¬l.path <+: top) (hfits : l.Fits σ.document) {index : Nat}
    (hbound : l.edit.IsBound index σ) :
    exec d ((withoutRepeats before (l.edit.emissions true index)).map Emission.statement) σ =
        some { σ with document := l.write σ.document } ∧
      Emission.ForcesOpen (l.above :: tops) (before ++ l.edit.emissions true index)
        (l.write σ.document) := by
  have hemissions : l.edit.emissions true index = Emission.creationsFrom [] l.above ++
      [⟨.effect, assignment l.pointer .insert (.param (Edit.localName l.pointer index))⟩] := by
    rw [edit_of_ne hvalue, Edit.emissions, Emission.insertable, pointer, Emission.ancestors_ofKeys]
    exact congrArg (· ++ _) (List.append_nil _)
  have hw : ∀ e ∈ Emission.creationsFrom [] l.above, e.statement.WellWritten := by
    intro e he
    have hr := (Operation.resolve_eq_ok hplain.resolve_operation).1
    have hmem : e ∈ l.edit.emissions true index := hemissions ▸ List.mem_append_left _ he
    exact hr.wellWritten_emissions hmem
  have hroot : σ.document.IsOpen [] := by
    obtain ⟨members, hm⟩ := hfits.admits [] List.nil_prefix σ.document rfl
    exact ⟨members, congrArg some hm⟩
  have habove : ∀ top ∈ l.above :: tops, ¬l.path <+: top := by
    intro top htop hway
    rcases List.mem_cons.1 htop with rfl | htop
    · have hlength := hway.length_le
      rw [path, List.length_append, List.length_singleton] at hlength
      omega
    · exact hapart top htop hway
  -- The guards open everything above the leaf, and the leaf is written into what they leave.
  obtain ⟨hguards, hopened⟩ := Emission.exec_creationsFrom (d := d) σ hw
    (List.mem_cons_self ..) (hforce.cons l.above) hroot hfits.admits
  rw [List.nil_append] at hguards hopened
  have hwrite : l.write (σ.document.updateIn id l.above) = l.write σ.document :=
    updateIn_updateIn id _ l.above σ.document
  have hassign := exec_assignment_leaf (d := d)
    { σ with document := σ.document.updateIn id l.above } hvalue
    (isOpen_updateIn_above id (List.prefix_refl _) _) hbound
  rw [hwrite] at hassign
  rw [hemissions]
  constructor
  · rw [withoutRepeats_append_singleton before _ (by simp), List.map_append, exec_append, hguards,
      Option.bind_some]
    exact (exec_singleton _).trans hassign
  · rw [← List.append_assoc, ← hwrite]
    exact (hopened.append_effect _).write habove

/-- The statements of a removal write its leaf. -/
theorem exec_removal (hplain : l.IsPlain) (hvalue : l.value = .null) (hfits : l.Fits σ.document)
    (tops : List (List String)) (before : List Emission) (index : Nat) :
    exec d ((withoutRepeats before (l.edit.emissions true index)).map Emission.statement) σ =
        some { σ with document := l.write σ.document } ∧
      Emission.ForcesOpen tops (before ++ l.edit.emissions true index) (l.write σ.document) := by
  have hemissions : l.edit.emissions true index =
      Emission.existing l.pointer ++ [⟨.removal, .discard (removal l.pointer)⟩] := by
    rw [edit_of_null hvalue, Edit.emissions]
  obtain ⟨w, hw⟩ := Option.isSome_iff_exists.1 (hfits.present hvalue)
  have hpath : σ.document.get? l.pointer.segments = some w := by
    rw [pointer, Pointer.segments_ofKeys, get?_keys]
    exact hw
  have hguards : exec d ((withoutRepeats before (Emission.existing l.pointer)).map
      Emission.statement) σ = some σ := by
    apply exec_eq_self
    intro statement hstatement
    obtain ⟨e, he, rfl⟩ := List.mem_map.1 hstatement
    apply exec_of_mem_existing hplain.resolved (by simp [pointer, Pointer.ofKeys])
    · rw [hpath]
      rfl
    · exact (withoutRepeats_sublist _ _).subset he
  rw [path, getIn?_append, Option.bind_eq_some_iff] at hw
  obtain ⟨j, hj, hbelow⟩ := hw
  obtain ⟨members, rfl⟩ := hfits.admits l.above (List.prefix_refl _) j hj
  have hlookup : members.lookup l.name = some w := by simpa [getIn?] using hbelow
  have hdiscard : (Statement.discard (removal l.pointer)).exec d σ =
      some { σ with document := l.write σ.document } := by
    have hget : σ.document.get? l.pointer.parents = some (.object members) :=
      (get?_keys l.above _).trans hj
    have hchild : (Json.object members).child? l.pointer.key = some w := hlookup
    rw [Statement.exec, eval_removal hget hchild, removeAt?_pointer hvalue hj hlookup]
    rfl
  rw [hemissions]
  constructor
  · rw [withoutRepeats_append_singleton before _ (by simp), List.map_append, exec_append, hguards,
      Option.bind_some]
    exact (exec_singleton _).trans hdiscard
  · rw [← List.append_assoc]
    exact Emission.ForcesOpen.append_removal _ _ _ _

/-- The statements of a leaf write it, whichever of its guards are left out. -/
theorem exec_leaf (hplain : l.IsPlain) {tops : List (List String)} {before : List Emission}
    (hforce : Emission.ForcesOpen tops before σ.document) (hapart : ∀ top ∈ tops, ¬l.path <+: top)
    (hfits : l.Fits σ.document) {index : Nat} (hbound : l.edit.IsBound index σ) :
    exec d ((withoutRepeats before (l.edit.emissions true index)).map Emission.statement) σ =
        some { σ with document := l.write σ.document } ∧
      Emission.ForcesOpen (l.above :: tops) (before ++ l.edit.emissions true index)
        (l.write σ.document) := by
  by_cases hvalue : l.value = .null
  · exact exec_removal hplain hvalue hfits _ before index
  · exact exec_addition hplain hvalue hforce hapart hfits hbound

/-- The statements of leaves that are apart write one leaf after the other. -/
theorem exec_leaves (σ : State) {ls : List Leaf} (hplain : ∀ l ∈ ls, l.IsPlain)
    (hapart : ls.Pairwise Leaf.Apart)
    {tops : List (List String)} {before : List Emission}
    (hforce : Emission.ForcesOpen tops before σ.document)
    (htops : ∀ l ∈ ls, ∀ top ∈ tops, ¬l.path <+: top) (hfits : ∀ l ∈ ls, l.Fits σ.document)
    {start : Nat} (hbound : ∀ e ∈ (ls.map Leaf.edit).zipIdx start, e.1.IsBound e.2 σ) :
    exec d ((withoutRepeats before (((ls.map Leaf.edit).zipIdx start).flatMap
        fun (edit, index) => edit.emissions true index)).map Emission.statement) σ =
      some { σ with document := ls.foldl (fun j l => l.write j) σ.document } := by
  induction ls generalizing tops before σ start with
  | nil => rfl
  | cons l ls ih =>
    obtain ⟨hl, hplain⟩ := List.forall_mem_cons.1 hplain
    obtain ⟨happartl, hapart⟩ := List.pairwise_cons.1 hapart
    obtain ⟨htopl, htops⟩ := List.forall_mem_cons.1 htops
    obtain ⟨hfitsl, hfits⟩ := List.forall_mem_cons.1 hfits
    rw [List.map_cons, List.zipIdx_cons, List.forall_mem_cons] at hbound
    obtain ⟨hboundl, hbound⟩ := hbound
    obtain ⟨hstep, hforce⟩ := exec_leaf (d := d) hl hforce htopl hfitsl hboundl
    have hnext : ∀ q ∈ ls, ∀ top ∈ l.above :: tops, ¬q.path <+: top := by
      intro q hq top htop hway
      rcases List.mem_cons.1 htop with rfl | htop
      · exact (happartl q hq).2 (hway.trans (List.prefix_append _ _))
      · exact htops q hq top htop hway
    have hrest := ih { σ with document := l.write σ.document } hplain hapart hforce hnext
      (fun q hq => (hfits q hq).write (happartl q hq)) hbound
    rw [List.map_cons, List.zipIdx_cons, List.flatMap_cons, withoutRepeats_append, List.map_append,
      exec_append, hstep, Option.bind_some, hrest, List.foldl_cons]

/-- For a patch without empty objects whose names are plain, and a document in which every container
of a leaf is an object or absent and everything that is removed is there, the script of the merge
patch does not abort, and leaves the document that merging the patch gives. What stands neither at a
leaf of the patch, nor above or below one, stays as it is. -/
theorem run_compile_ofMerge {patch document : List (String × Json)} (lang : String)
    (htidy : TidyMembers patch) (hplain : ∀ l ∈ leaves patch, ∀ n ∈ l.path, IsPlainName n)
    (hadmits : ∀ l ∈ leaves patch, ∀ before, before <+: l.path → before ≠ l.path →
      ∀ w, (Json.object document).getIn? before = some w → ∃ members, w = .object members)
    (hpresent : ∀ l ∈ leaves patch, l.value = .null →
      ((Json.object document).getIn? l.path).isSome) :
    ∃ operations s statements, ofMerge (.object patch) = .ok operations ∧
      compile true lang operations = .ok s ∧ program true operations = .ok statements ∧
      s.instructions = statements.map Statement.text ∧
      (∀ d : Dialect, run d s.params statements (.object document) =
        some (Json.merge (.object patch) (.object document))) ∧
      ∀ path, (∀ l ∈ leaves patch, ¬l.path <+: path ∧ ¬path <+: l.path) →
        (Json.merge (.object patch) (.object document)).getIn? path =
          (Json.object document).getIn? path := by
  have hedits := mapM_resolve_operation hplain
  obtain ⟨s, hs⟩ : ∃ s, compile true lang ((leaves patch).map Leaf.operation) = .ok s := by
    rw [compile, hedits]
    exact ⟨_, rfl⟩
  obtain ⟨edits, statements, hresolved, hprogram, rfl, hlines, hparams⟩ := program_of_compile hs
  rw [hedits, Except.ok.injEq] at hresolved
  subst hresolved
  refine ⟨_, s, _, ofMerge_object patch, hs, hprogram, hlines, fun d => ?_, fun path hpath => ?_⟩
  · have hfits : ∀ l ∈ leaves patch, l.Fits (.object document) := by
      intro l hl
      refine ⟨fun before hbefore => hadmits l hl before (hbefore.trans (List.prefix_append _ _)) ?_,
        hpresent l hl⟩
      rintro rfl
      have hlength := hbefore.length_le
      rw [Leaf.path, List.length_append, List.length_singleton] at hlength
      omega
    have hbound : ∀ e ∈ ((leaves patch).map Leaf.edit).zipIdx,
        e.1.IsBound e.2 ⟨.object document, s.params, []⟩ := by
      intro e he name value hname
      rw [hparams]
      exact lookup_parameters (List.mk_mem_zipIdx_iff_getElem?.1 he) hname
    have hforce : Emission.ForcesOpen [] [] (.object document) := by
      intro line hline
      exact absurd hline (not_inForce_nil line)
    have hexec := exec_leaves (d := d) ⟨.object document, s.params, []⟩ hplain
      (pairwise_apart_leavesBelow htidy) hforce (by simp) hfits hbound
    rw [run, emissions, hexec, ← foldl_write_leaves htidy]
    rfl
  · rw [← foldl_write_leaves htidy]
    exact getIn?_foldl_write hpath _

theorem run_compile_ofMerge_null_then_text :
    ∃ operations s statements,
      ofMerge (.object [("a", .object [("b:c", .null), ("d", .text "v")])]) = .ok operations ∧
      compile true defaultLang operations = .ok s ∧ program true operations = .ok statements ∧
      ∀ d : Dialect, run d s.params statements (.object [("a", .object [("b:c", .bool true)])]) =
        some (.object [("a", .object [("d", .text "v")])]) := by
  have hname {name : String} (hline : Text.SingleLine name) (hread : ofText name = .key name) :
      IsPlainName name := ⟨hline, (ofText_eq_key_iff name).1 hread⟩
  have ha : IsPlainName "a" := hname (by decide) (by decide)
  have hbc : IsPlainName "b:c" := hname (by decide) (by decide)
  have hd : IsPlainName "d" := hname (by decide) (by decide)
  have hleaves : leaves [("a", .object [("b:c", .null), ("d", .text "v")])] =
      [⟨["a"], "b:c", .null⟩, ⟨["a"], "d", .text "v"⟩] := rfl
  have htidy : TidyMembers [("a", .object [("b:c", .null), ("d", .text "v")])] := by
    simp [TidyMembers, Tidy]
  have hcontainer (last : String) (before : List String) (hbefore : before <+: ["a"] ++ [last])
      (hne : before ≠ ["a"] ++ [last]) (w : Json)
      (hw : (Json.object [("a", .object [("b:c", .bool true)])]).getIn? before = some w) :
      ∃ members, w = .object members := by
    have hway : before <+: ["a"] := (List.prefix_concat_iff.1 hbefore).resolve_left hne
    rcases List.prefix_concat_iff.1 (show before <+: [] ++ ["a"] from hway) with rfl | hnil
    · exact ⟨_, (Option.some.inj hw).symm⟩
    · obtain rfl : before = [] := List.prefix_nil.1 hnil
      exact ⟨_, (Option.some.inj hw).symm⟩
  obtain ⟨operations, s, statements, hoperations, hs, hprogram, -, hrun, -⟩ :=
    run_compile_ofMerge defaultLang htidy (by rw [hleaves]; simp [Leaf.path, ha, hbc, hd])
      (by rw [hleaves]; simpa [Leaf.path] using ⟨hcontainer "b:c", hcontainer "d"⟩)
      (by rw [hleaves]; simp [Leaf.path, getIn?])
  exact ⟨operations, s, statements, hoperations, hs, hprogram, fun d => (hrun d).trans rfl⟩

end Patch

end Catalog
