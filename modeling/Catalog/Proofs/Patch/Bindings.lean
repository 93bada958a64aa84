import Catalog.Proofs.Patch.Guards
import Catalog.Proofs.Patch.Values
import Catalog.Proofs.Script.Names

/-!
# Parameters and bindings

An operation with a value binds a parameter, and a move names the value that it takes. Both names
are told from a pointer, so they may be alike up to their numbers, but the numbers keep them apart:
no two parameters or bindings of a script have the same name. Guards refer to no name at all. So
outside of its literals a script refers to its own parameters and to the values that its moves have
taken on the line before, and to no others. A member of the document may well be called like one of
them, or like the parameters as a whole, but it stands behind a point.
-/

namespace Catalog

open Script Segment

attribute [local simp] Expr.occurrences Statement.occurrences

namespace Segment

variable {c : Expr}

/-- The accessor of a segment refers to no name besides its container. -/
theorem occurrences_accessor (hc : c.occurrences = []) (s : Segment) :
    (s.accessor c).occurrences = [] := by
  cases s with
  | key name =>
    rw [accessor]
    split
    · exact hc
    · simp [hc]
  | position n => simp [accessor, hc]
  | fromEnd n => simp [accessor, selector, hc]
  | append => simp [accessor, selector, hc]

theorem occurrences_selector (hc : c.occurrences = []) (s : Segment) :
    (s.selector c).occurrences = [] := by
  cases s <;> simp [selector, hc]

theorem occurrences_isPresent (hc : c.occurrences = []) (s : Segment) :
    (s.isPresent c).occurrences = [] := by
  cases s <;> simp [isPresent, hc]

theorem occurrences_isInsertable (hc : c.occurrences = []) (s : Segment) :
    (s.isInsertable c).occurrences = [] := by
  cases s <;> simp [isInsertable, isPresent, hc]

/-- No name leads into the document. -/
theorem occurrences_chain (ss : List Segment) : (chain ss).occurrences = [] := by
  induction ss using List.reverseRecOn with
  | nil => rfl
  | append_singleton ss s ih =>
    rw [chain_append_singleton]
    exact occurrences_accessor ih s

end Segment

namespace Pointer

theorem occurrences_container (p : Pointer) : p.container.occurrences = [] := occurrences_chain _

theorem occurrences_accessor (p : Pointer) : p.accessor.occurrences = [] :=
  Segment.occurrences_accessor p.occurrences_container p.key

theorem occurrences_selector (p : Pointer) : p.selector.occurrences = [] :=
  Segment.occurrences_selector p.occurrences_container p.key

end Pointer

namespace Patch

variable {p : Pointer} {e : Emission} {create : Bool}

namespace Emission

theorem occurrences_demand {condition : Expr} (h : condition.occurrences = []) (pointer : String) :
    (demand condition pointer).statement.occurrences = [] := by
  simp [demand, h]

theorem occurrences_of_mem_ancestors (he : e ∈ ancestors p create) :
    e.statement.occurrences = [] := by
  obtain ⟨⟨s, depth⟩, -, rfl⟩ := List.mem_map.1 he
  have hc := occurrences_chain (p.parents.take depth)
  dsimp only
  unfold ancestor
  split
  · simp [creation, hc, Segment.occurrences_accessor]
  · exact occurrences_demand (occurrences_isPresent hc s) _

theorem occurrences_of_mem_existing (he : e ∈ existing p) : e.statement.occurrences = [] := by
  rcases List.mem_append.1 he with he | he
  · exact occurrences_of_mem_ancestors he
  · rw [List.mem_singleton.1 he]
    exact occurrences_demand (occurrences_isPresent p.occurrences_container _) _

theorem occurrences_of_mem_insertable (he : e ∈ insertable p create) :
    e.statement.occurrences = [] := by
  rcases List.mem_append.1 he with he | he
  · exact occurrences_of_mem_ancestors he
  · split at he
    · rw [List.mem_singleton.1 he]
      exact occurrences_demand (occurrences_isInsertable p.occurrences_container _) _
    · simp at he

end Emission

/-- An assignment refers to the names of its value alone. -/
theorem mem_occurrences_assignment {placement : Placement} {value : Expr} {o : Occurrence} :
    o ∈ (assignment p placement value).occurrences ↔ o ∈ value.occurrences := by
  have hc := p.occurrences_container
  have hplacement {index : Expr} (hindex : index.occurrences = []) :
      (placement.statement p.container index value).occurrences = value.occurrences := by
    cases placement <;> simp [Placement.statement, hc, hindex]
  unfold assignment
  split
  · simp [p.occurrences_accessor]
  · next n _ =>
    have hcount := hplacement (show (Expr.count n).occurrences = [] from rfl)
    simp [hc, hcount]
  · rw [hplacement p.occurrences_selector]

theorem occurrences_removal (p : Pointer) : (removal p).occurrences = [] := by
  have hc := p.occurrences_container
  unfold removal
  split
  · simp [Removal.occurrences, hc]
  · simp [Removal.occurrences, hc, p.occurrences_selector]

/-- An assertion refers to the names of the expected value alone. -/
theorem mem_occurrences_assertion {expected : Expr} {o : Occurrence} :
    o ∈ (assertion p expected).occurrences ↔ o ∈ expected.occurrences := by
  simp [assertion, p.occurrences_accessor]

namespace Edit

/-- The statement with which the move with a number takes its value. -/
def takes (source : Pointer) (index : Nat) : Statement :=
  .define (localName source index) (removal source)

/-- The statement with which the move with a number puts its value in place. -/
def places (source target : Pointer) (index : Nat) : Statement :=
  assignment target .insert (.binding (localName source index))

/-- The binding that the edit with a number defines. -/
def definition? (index : Nat) : Edit → Option String
  | .move source _ => some (localName source index)
  | _ => none

/-- The only names that the statements of an edit refer to are its own. -/
inductive Refers (index : Nat) : Edit → Emission → Occurrence → Prop where
  | param {edit : Edit} {e : Emission} {name : String} {value : Json}
    (h : edit.parameter? index = some (name, value)) : Refers index edit e (.param name)
  | use (source target : Pointer) :
    Refers index (.move source target) ⟨.effect, places source target index⟩
      (.use (localName source index))
  | definition (source target : Pointer) :
    Refers index (.move source target) ⟨.removal, takes source index⟩
      (.definition (localName source index))

theorem occurrences_of_mem_guards {edit : Edit} (he : e ∈ edit.guards create) :
    e.statement.occurrences = [] := by
  cases edit with
  | add => exact Emission.occurrences_of_mem_insertable he
  | replace | remove | test => exact Emission.occurrences_of_mem_existing he
  | copy | move =>
    rcases List.mem_append.1 he with he | he
    · exact Emission.occurrences_of_mem_existing he
    · exact Emission.occurrences_of_mem_insertable he

theorem refers_of_mem_emissions {edit : Edit} {index : Nat} {o : Occurrence}
    (he : e ∈ edit.emissions create index) (ho : o ∈ e.statement.occurrences) :
    Refers index edit e o := by
  rw [edit.emissions_eq] at he
  rcases List.mem_append.1 he with he | he
  · rw [occurrences_of_mem_guards he] at ho
    cases ho
  · cases edit with
    | add p value | replace p value =>
      rw [List.mem_singleton.1 he] at ho
      rw [List.mem_singleton.1 (mem_occurrences_assignment.1 ho)]
      exact .param rfl
    | remove p =>
      rw [List.mem_singleton.1 he, Statement.occurrences, occurrences_removal] at ho
      cases ho
    | test p value =>
      rw [List.mem_singleton.1 he] at ho
      rw [List.mem_singleton.1 (mem_occurrences_assertion.1 ho)]
      exact .param rfl
    | copy source p =>
      rw [List.mem_singleton.1 he] at ho
      have hsource := mem_occurrences_assignment.1 ho
      rw [source.occurrences_accessor] at hsource
      cases hsource
    | move source p =>
      rcases List.mem_cons.1 he with rfl | he
      · rw [Statement.occurrences, occurrences_removal] at ho
        rw [List.mem_singleton.1 ho]
        exact .definition source p
      · rw [List.mem_singleton.1 he] at ho ⊢
        rw [List.mem_singleton.1 (mem_occurrences_assignment.1 ho)]
        exact .use source p

end Edit

/-! ### What is defined -/

/-- The bindings that a statement defines. -/
def definitions (st : Statement) : List String :=
  st.occurrences.filterMap fun
    | .definition name => some name
    | _ => none

theorem mem_definitions {st : Statement} {name : String} :
    name ∈ definitions st ↔ .definition name ∈ st.occurrences := by
  rw [definitions, List.mem_filterMap]
  constructor
  · rintro ⟨o, ho, hname⟩
    split at hname
    · cases hname
      exact ho
    · cases hname
  · exact fun h => ⟨_, h, rfl⟩

theorem definitions_eq_nil {st : Statement} (h : ∀ name, .definition name ∉ st.occurrences) :
    definitions st = [] :=
  List.eq_nil_iff_forall_not_mem.2 fun name hname => h name (mem_definitions.1 hname)

theorem Edit.definitions_takes (source : Pointer) (index : Nat) :
    definitions (takes source index) = [localName source index] := by
  rw [definitions, takes, Statement.occurrences, occurrences_removal]
  rfl

/-- An edit defines its own binding, once. -/
theorem Edit.flatMap_definitions (create : Bool) (index : Nat) (edit : Edit) :
    (edit.emissions create index).flatMap (fun e => definitions e.statement) =
      (edit.definition? index).toList := by
  cases edit with
  | move source p =>
    have hguards : ((Edit.move source p).guards create).flatMap
        (fun e => definitions e.statement) = [] := by
      rw [List.flatMap_eq_nil_iff]
      intro e he
      rw [definitions, occurrences_of_mem_guards he, List.filterMap_nil]
    have hplaces : definitions (places source p index) = [] := by
      refine definitions_eq_nil fun name hname => ?_
      cases List.mem_singleton.1 (mem_occurrences_assignment.1 hname)
    have htwo : ((Edit.move source p).effects index).flatMap (fun e => definitions e.statement) =
        definitions (takes source index) ++ (definitions (places source p index) ++ []) := rfl
    rw [emissions_eq, List.flatMap_append, hguards, htwo, hplaces, definitions_takes]
    rfl
  | _ =>
    refine List.flatMap_eq_nil_iff.2 fun e he => definitions_eq_nil fun name hname => ?_
    cases refers_of_mem_emissions he hname

/-- A statement of an edit refers to the names of that edit. -/
theorem exists_refers_of_mem_emissions {edits : List Edit} {o : Occurrence}
    (he : e ∈ emissions create edits) (ho : o ∈ e.statement.occurrences) :
    ∃ edit index, edits[index]? = some edit ∧ Edit.Refers index edit e o := by
  obtain ⟨⟨edit, index⟩, hmem, he⟩ := List.mem_flatMap.1 he
  exact ⟨edit, index, List.mk_mem_zipIdx_iff_getElem?.1 hmem, Edit.refers_of_mem_emissions he ho⟩

/-- Guards define nothing. -/
theorem flatMap_definitions_filter {edits : List Edit} {es : List Emission}
    (hes : es ⊆ emissions create edits) :
    (es.filter fun e => e.role != .guard).flatMap (fun e => definitions e.statement) =
      es.flatMap fun e => definitions e.statement := by
  induction es with
  | nil => rfl
  | cons e es ih =>
    obtain ⟨he, hes⟩ := List.cons_subset.1 hes
    by_cases hrole : e.role = .guard
    · have hnone : definitions e.statement = [] := by
        refine definitions_eq_nil fun name hname => ?_
        obtain ⟨edit, index, -, hrefers⟩ := exists_refers_of_mem_emissions he hname
        cases hrefers
        cases hrole
      rw [List.filter_cons_of_neg (by simp [hrole]), ih hes, List.flatMap_cons, hnone,
        List.nil_append]
    · rw [List.filter_cons_of_pos (by simpa using hrole), List.flatMap_cons, ih hes,
        List.flatMap_cons]

/-- The bindings of a script are those of its edits, in their order. -/
theorem definitions_withoutRepeats (create : Bool) (edits : List Edit) :
    ((withoutRepeats [] (emissions create edits)).map Emission.statement).flatMap definitions =
      edits.zipIdx.filterMap fun edit => edit.1.definition? edit.2 := by
  have hkept := (withoutRepeats_sublist [] (emissions create edits)).subset
  calc
    _ = (withoutRepeats [] (emissions create edits)).flatMap fun e => definitions e.statement :=
      List.flatMap_map ..
    _ = (emissions create edits).flatMap fun e => definitions e.statement := by
      rw [← flatMap_definitions_filter hkept, filter_withoutRepeats,
        flatMap_definitions_filter (List.Subset.refl _)]
    _ = edits.zipIdx.flatMap fun edit => (edit.1.definition? edit.2).toList := by
      rw [emissions, List.flatMap_assoc]
      exact List.flatMap_congr fun edit _ => edit.1.flatMap_definitions create edit.2
    _ = _ := (List.filterMap_eq_flatMap_toList _ _).symm

/-! ### What the names look like -/

/-- A word that does not start with a digit is an identifier. -/
theorem isIdentifier_of_isWord {name : String} {c : Char} {rest : List Char} (h : IsWord name)
    (hchars : name.toList = c :: rest) (hc : c.isDigit = false) : isIdentifier name = true := by
  rw [IsWord, hchars, List.forall_mem_cons] at h
  have hfirst : (c.isAlpha || c == '_') = true := by
    have hnameRest := h.1
    rwa [Lexeme.isNameRest, Char.isAlphanum, hc, Bool.or_false] at hnameRest
  rw [isIdentifier, hchars]
  dsimp only
  rw [hfirst, Bool.true_and, List.all_eq_true]
  exact h.2

/-- The name that is told from a pointer never starts with a digit. -/
theorem exists_toList_variableName (p : Pointer) :
    ∃ c rest, p.variableName.toList = c :: rest ∧ c.isDigit = false := by
  simp only [Pointer.variableName]
  split
  · exact ⟨_, _, String.toList_ofList, by decide⟩
  · next hgood =>
    rw [String.toList_ofList]
    rw [Bool.or_eq_true, not_or] at hgood
    generalize Pointer.sanitize _ = name at hgood
    cases name with
    | nil => exact absurd rfl hgood.1
    | cons c rest => exact ⟨c, rest, rfl, by simpa using hgood.1⟩

theorem isIdentifier_localName (p : Pointer) (index : Nat) :
    isIdentifier (Edit.localName p index) = true := by
  obtain ⟨c, rest, hchars, hc⟩ := exists_toList_variableName p
  have hname : (Edit.localName p index).toList = c :: (rest ++ '_' :: (Nat.repr index).toList) := by
    simp [Edit.localName, hchars]
  exact isIdentifier_of_isWord (isWord_localName p index) hname hc

/-- Neither a reserved name nor a word of the language holds a number. -/
theorem localName_notMem (p : Pointer) (index : Nat) :
    Edit.localName p index ∉ Pointer.reservedNames ++ languageWords := by
  intro hmem
  have hreserved : ∀ name ∈ Pointer.reservedNames ++ languageWords, '_' ∉ name.toList := by decide
  refine hreserved _ hmem ?_
  simp [Edit.localName]

/-- What is found in the edits is told from the operations that it is taken from, one by one. -/
theorem forall₂_filterMap_zipIdx {operations : List Operation} {edits : List Edit}
    (h : operations.mapM Operation.resolve = .ok edits) {α : Type} (takes : Operation × Nat → Bool)
    (found : Edit × Nat → Option α) (tells : Operation × Nat → α → Prop)
    (hsome : ∀ o edit index, o.Checked edit → takes (o, index) = true →
      ∃ a, found (edit, index) = some a ∧ tells (o, index) a)
    (hnone : ∀ o edit index, o.Checked edit → takes (o, index) = false →
      found (edit, index) = none) :
    List.Forall₂ tells (operations.zipIdx.filter takes) (edits.zipIdx.filterMap found) := by
  have hall := Outcome.mapM_eq_ok_iff.1 h
  clear h
  generalize 0 = start
  induction hall generalizing start with
  | nil => exact .nil
  | @cons o edit operations edits ho _ ih =>
    have hchecked := Operation.checked_of_resolve ho
    rw [List.zipIdx_cons, List.zipIdx_cons]
    cases htakes : takes (o, start) with
    | true =>
      obtain ⟨a, hfound, htells⟩ := hsome o edit start hchecked htakes
      rw [List.filter_cons_of_pos htakes, List.filterMap_cons_some hfound]
      exact .cons htells (ih _)
    | false =>
      rw [List.filter_cons_of_neg (by simp [htakes]),
        List.filterMap_cons_none (hnone o edit start hchecked htakes)]
      exact ih _

/-- The operation with a number binds its own value, under a name that is told from its path. -/
def BindsValue (o : Operation × Nat) (parameter : String × Json) : Prop :=
  ∃ p value, Pointer.resolve o.1.path = .ok p ∧ o.1.value = some value ∧
    parameter = (Edit.localName p o.2, value)

/-- The operation with a number names what it takes, after its source. -/
def NamesSource (o : Operation × Nat) (name : String) : Prop :=
  ∃ text p, o.1.source = some text ∧ Pointer.resolve text = .ok p ∧ name = Edit.localName p o.2

theorem bindsValue_parameters {operations : List Operation} {edits : List Edit}
    (h : operations.mapM Operation.resolve = .ok edits) :
    List.Forall₂ BindsValue (operations.zipIdx.filter fun o => o.1.kind.takesValue)
      (parameters edits) := by
  refine forall₂_filterMap_zipIdx h _ _ _ ?_ ?_
  · intro o edit index hchecked htakes
    cases hchecked with
    | add hkind hvalue hp | replace hkind hvalue hp | test hkind hvalue hp =>
      exact ⟨_, rfl, _, _, (Operation.target_eq_ok hp).1, Operation.value_of_needValue hvalue, rfl⟩
    | remove hkind | copy hkind | move hkind =>
      rw [hkind] at htakes
      cases htakes
  · intro o edit index hchecked htakes
    cases hchecked with
    | add hkind | replace hkind | test hkind =>
      rw [hkind] at htakes
      cases htakes
    | remove | copy | move => rfl

theorem namesSource_definitions {operations : List Operation} {edits : List Edit}
    (h : operations.mapM Operation.resolve = .ok edits) :
    List.Forall₂ NamesSource (operations.zipIdx.filter fun o => o.1.kind == .move)
      (edits.zipIdx.filterMap fun edit => edit.1.definition? edit.2) := by
  refine forall₂_filterMap_zipIdx h _ _ _ ?_ ?_
  · intro o edit index hchecked htakes
    cases hchecked with
    | move hkind htext hsource hp =>
      exact ⟨_, rfl, _, _, Operation.source_of_needSource htext,
        (Operation.resolveSource_eq_ok hsource).1, rfl⟩
    | add hkind | replace hkind | test hkind | remove hkind | copy hkind =>
      rw [hkind] at htakes
      cases htakes
  · intro o edit index hchecked htakes
    cases hchecked with
    | move hkind =>
      rw [hkind] at htakes
      cases htakes
    | _ => rfl

theorem exists_of_mem_parameterNames {edits : List Edit} {name : String}
    (h : name ∈ (parameters edits).map Prod.fst) :
    ∃ (edit : Edit) (index : Nat) (value : Json), edits[index]? = some edit ∧
      edit.parameter? index = some (name, value) := by
  obtain ⟨⟨_, value⟩, hmem, rfl⟩ := List.mem_map.1 h
  obtain ⟨⟨edit, index⟩, hedit, hvalue⟩ := List.mem_filterMap.1 hmem
  exact ⟨edit, index, value, List.mk_mem_zipIdx_iff_getElem?.1 hedit, hvalue⟩

theorem exists_of_mem_definitions {edits : List Edit} {name : String}
    (h : name ∈ edits.zipIdx.filterMap fun edit => edit.1.definition? edit.2) :
    ∃ index source target, edits[index]? = some (.move source target) ∧
      name = Edit.localName source index := by
  obtain ⟨⟨edit, index⟩, hedit, hname⟩ := List.mem_filterMap.1 h
  cases edit with
  | move source target =>
    exact ⟨index, source, target, List.mk_mem_zipIdx_iff_getElem?.1 hedit,
      (Option.some.inj hname).symm⟩
  | _ => cases hname

/-- No parameter has the name of a binding. -/
theorem nodup_parameterNames_append_definitions (edits : List Edit) :
    ((parameters edits).map Prod.fst ++
      edits.zipIdx.filterMap fun edit => edit.1.definition? edit.2).Nodup := by
  rw [List.nodup_append]
  refine ⟨nodup_parameterNames edits, nodup_names ?_ edits, ?_⟩
  · rintro ⟨edit, index⟩ name hname
    cases edit with
    | move source target => exact ⟨source, (Option.some.inj hname).symm⟩
    | _ => cases hname
  · rintro name hparam _ hdefinition rfl
    obtain ⟨edit, index, value, hedit, hvalue⟩ := exists_of_mem_parameterNames hparam
    obtain ⟨index', source, target, hmove, hname⟩ := exists_of_mem_definitions hdefinition
    obtain ⟨p, rfl⟩ := Edit.name_of_parameter? hvalue
    obtain rfl := Edit.localName_inj hname
    obtain rfl := Option.some.inj (hedit.symm.trans hmove)
    cases hvalue

/-- All names of a script are told from pointers and numbers. -/
theorem exists_localName_of_mem {edits : List Edit} {name : String}
    (h : name ∈ (parameters edits).map Prod.fst ++
      edits.zipIdx.filterMap fun edit => edit.1.definition? edit.2) :
    ∃ p index, name = Edit.localName p index := by
  rcases List.mem_append.1 h with h | h
  · obtain ⟨edit, index, value, -, hvalue⟩ := exists_of_mem_parameterNames h
    obtain ⟨p, hp⟩ := Edit.name_of_parameter? hvalue
    exact ⟨p, index, hp⟩
  · obtain ⟨index, source, -, -, hname⟩ := exists_of_mem_definitions h
    exact ⟨source, index, hname⟩

/-! ### Where bindings are used -/

/-- Each statement that uses a binding is the one with which a move puts its value in place, and
stands right behind the one with which the same move takes it. -/
def UsesFollow (edits : List Edit) (es : List Emission) : Prop :=
  ∀ before e after name, es = before ++ e :: after → .use name ∈ e.statement.occurrences →
    ∃ index source target earlier, edits[index]? = some (.move source target) ∧
      name = Edit.localName source index ∧
      before = earlier ++ [⟨.removal, Edit.takes source index⟩] ∧
      e = ⟨.effect, Edit.places source target index⟩

theorem usesFollow_of_forall {edits : List Edit} {es : List Emission}
    (h : ∀ e ∈ es, ∀ name, .use name ∉ e.statement.occurrences) : UsesFollow edits es := by
  rintro before e after name rfl hname
  exact absurd hname (h e (by simp) name)

theorem UsesFollow.append {edits : List Edit} {xs ys : List Emission} (hx : UsesFollow edits xs)
    (hy : UsesFollow edits ys) : UsesFollow edits (xs ++ ys) := by
  intro before e after name hsplit hname
  rcases List.append_eq_append_iff.1 hsplit with ⟨mid, rfl, hmid⟩ | ⟨mid, rfl, hmid⟩
  · obtain ⟨index, source, target, earlier, hmove, hindex, rfl, he⟩ :=
      hy mid e after name hmid hname
    exact ⟨index, source, target, xs ++ earlier, hmove, hindex, by rw [List.append_assoc], he⟩
  · cases mid with
    | nil =>
      obtain ⟨index, source, target, earlier, -, -, hnil, -⟩ := hy [] e after name hmid.symm hname
      simp at hnil
    | cons f mid =>
      obtain ⟨rfl, -⟩ := List.cons.inj hmid
      exact hx before e mid name rfl hname

/-- A move uses its binding right behind the definition. -/
theorem Edit.usesFollow_emissions {edits : List Edit} {edit : Edit} {index : Nat}
    (hedit : edits[index]? = some edit) (create : Bool) :
    UsesFollow edits (edit.emissions create index) := by
  have hguards : UsesFollow edits (edit.guards create) := by
    refine usesFollow_of_forall fun e he name hname => ?_
    rw [occurrences_of_mem_guards he] at hname
    cases hname
  cases edit with
  | move source target =>
    rw [emissions_eq]
    refine hguards.append ?_
    intro before e after name hsplit hname
    rcases before with - | ⟨first, - | ⟨second, before⟩⟩
    · obtain ⟨rfl, -⟩ := List.cons.inj hsplit
      rw [Statement.occurrences, occurrences_removal] at hname
      cases List.mem_singleton.1 hname
    · obtain ⟨rfl, hrest⟩ := List.cons.inj hsplit
      obtain ⟨rfl, -⟩ := List.cons.inj hrest
      cases List.mem_singleton.1 (mem_occurrences_assignment.1 hname)
      exact ⟨index, source, target, [], hedit, rfl, rfl, rfl⟩
    · have hlength := congrArg List.length hsplit
      simp only [effects, List.length_cons, List.length_append, List.length_nil] at hlength
      omega
  | _ =>
    refine usesFollow_of_forall fun e he name hname => ?_
    cases refers_of_mem_emissions he hname

theorem usesFollow_emissions (create : Bool) (edits : List Edit) :
    UsesFollow edits (emissions create edits) := by
  have hflat (numbered : List (Edit × Nat)) (h : numbered ⊆ edits.zipIdx) :
      UsesFollow edits (numbered.flatMap fun edit => edit.1.emissions create edit.2) := by
    induction numbered with
    | nil => exact usesFollow_of_forall (by simp)
    | cons edit numbered ih =>
      obtain ⟨hedit, hnumbered⟩ := List.cons_subset.1 h
      rw [List.flatMap_cons]
      exact (edit.1.usesFollow_emissions (List.mk_mem_zipIdx_iff_getElem?.1 hedit) create).append
        (ih hnumbered)
  exact hflat _ (List.Subset.refl _)

/-- Dropping repeated guards takes nothing away from between the two statements. -/
theorem UsesFollow.withoutRepeats {edits : List Edit} {es : List Emission}
    (h : UsesFollow edits es) : UsesFollow edits (withoutRepeats [] es) := by
  intro before e after name hsplit hname
  obtain ⟨xs, ys, hes, rfl, -⟩ := exists_split_of_withoutRepeats_eq hsplit
  obtain ⟨index, source, target, earlier, hmove, hindex, rfl, he⟩ := h xs e ys name hes hname
  refine ⟨index, source, target, Patch.withoutRepeats [] earlier, hmove, hindex, ?_, he⟩
  exact withoutRepeats_append_singleton [] earlier (by simp)

/-- A name in code is a binding. Either a move defines it on this line, and the value that it takes
refers to no name, or the same move defined it on the line before and now puts the value in place. -/
inductive NamedByMove (edits : List Edit) (name : String) (before : List String) (line : String) :
    Prop where
  | definition {index : Nat} {source target : Pointer}
    (hmove : edits[index]? = some (.move source target))
    (hname : name = Edit.localName source index) (hline : line = (Edit.takes source index).text)
    (hvalue : (removal source).occurrences = []) : NamedByMove edits name before line
  | use {index : Nat} {source target : Pointer} {earlier : List String}
    (hmove : edits[index]? = some (.move source target))
    (hname : name = Edit.localName source index)
    (hbefore : before = earlier ++ [(Edit.takes source index).text])
    (hline : line = (Edit.places source target index).text) : NamedByMove edits name before line

theorem namedByMove_of_mem {edits : List Edit} {before after : List Emission} {name : String}
    (hsplit : withoutRepeats [] (emissions create edits) = before ++ e :: after)
    (hname : .use name ∈ e.statement.occurrences ∨ .definition name ∈ e.statement.occurrences) :
    NamedByMove edits name (before.map fun f => f.statement.text) e.statement.text := by
  rcases hname with hname | hname
  · obtain ⟨index, source, target, earlier, hmove, rfl, rfl, rfl⟩ :=
      (usesFollow_emissions create edits).withoutRepeats before e after name hsplit hname
    exact .use hmove rfl (by rw [List.map_append, List.map_singleton]) rfl
  · have hmem : e ∈ emissions create edits :=
      (withoutRepeats_sublist [] _).subset (hsplit ▸ by simp)
    obtain ⟨edit, index, hedit, hrefers⟩ := exists_refers_of_mem_emissions hmem hname
    cases hrefers with
    | definition source target => exact .definition hedit rfl rfl (occurrences_removal source)

/-- No binding is called like the parameters. -/
theorem ne_params_of_mem {edits : List Edit} {name : String} (he : e ∈ emissions create edits)
    (hname : .use name ∈ e.statement.occurrences ∨ .definition name ∈ e.statement.occurrences) :
    name ≠ "params" := by
  have hlocal : ∃ p index, name = Edit.localName p index := by
    rcases hname with hname | hname
    · obtain ⟨edit, index, -, hrefers⟩ := exists_refers_of_mem_emissions he hname
      cases hrefers
      exact ⟨_, _, rfl⟩
    · obtain ⟨edit, index, -, hrefers⟩ := exists_refers_of_mem_emissions he hname
      cases hrefers
      exact ⟨_, _, rfl⟩
  obtain ⟨p, index, rfl⟩ := hlocal
  intro hparams
  exact localName_notMem p index (hparams ▸ by decide)

/-- A parameter that a statement refers to is one of the script. -/
theorem mem_parameterNames_of_mem {edits : List Edit} {name : String}
    (he : e ∈ emissions create edits) (hname : .param name ∈ e.statement.occurrences) :
    name ∈ (parameters edits).map Prod.fst := by
  obtain ⟨edit, index, hedit, hrefers⟩ := exists_refers_of_mem_emissions he hname
  cases hrefers with
  | param hvalue =>
    exact List.mem_map.2 ⟨_, List.mem_filterMap.2
      ⟨(edit, index), List.mk_mem_zipIdx_iff_getElem?.2 hedit, hvalue⟩, rfl⟩

/-- The parameters of a script are the values of its operations, each under a name of its own, in
the order of the operations, and every move defines one binding. No two of these names are the same,
and each is an identifier that means nothing else. In the code of a line, whatever follows the name
of the parameters is one of them, and every other identifier that is no word of the language is a
binding: the line defines it, or the line before does and belongs to the same move. -/
theorem names_of_compile {create : Bool} {lang : String} {operations : List Operation} {s : Script}
    (h : compile create lang operations = .ok s) :
    ∃ edits statements, operations.mapM Operation.resolve = .ok edits ∧
      program create operations = .ok statements ∧
      s.instructions = statements.map Statement.text ∧
      List.Forall₂ BindsValue (operations.zipIdx.filter fun o => o.1.kind.takesValue) s.params ∧
      List.Forall₂ NamesSource (operations.zipIdx.filter fun o => o.1.kind == .move)
        (statements.flatMap definitions) ∧
      (s.params.map Prod.fst ++ statements.flatMap definitions).Nodup ∧
      (∀ name ∈ s.params.map Prod.fst ++ statements.flatMap definitions,
        isIdentifier name = true ∧ name ∉ Pointer.reservedNames ++ languageWords) ∧
      ∀ before line after, s.instructions = before ++ line :: after →
        ∃ pieces, scan line.toList = some pieces ∧
          (∀ rest, "params" :: rest ∈ dottedNames pieces →
            ∃ name more, rest = name :: more ∧ name ∈ s.params.map Prod.fst) ∧
          ∀ name rest, name :: rest ∈ dottedNames pieces → isIdentifier name = true →
            name ≠ "params" → name ∉ languageWords → NamedByMove edits name before line := by
  obtain ⟨edits, statements, hedits, hprogram, rfl, hlines, hparams⟩ := program_of_compile h
  refine ⟨edits, _, hedits, hprogram, hlines, ?_, ?_, ?_, ?_, ?_⟩
  · exact hparams ▸ bindsValue_parameters hedits
  · exact definitions_withoutRepeats create edits ▸ namesSource_definitions hedits
  · rw [hparams, definitions_withoutRepeats]
    exact nodup_parameterNames_append_definitions edits
  · rw [hparams, definitions_withoutRepeats]
    intro name hname
    obtain ⟨p, index, rfl⟩ := exists_localName_of_mem hname
    exact ⟨isIdentifier_localName p index, localName_notMem p index⟩
  · intro before line after hsplit
    rw [hlines, List.map_map, List.map_eq_append_iff] at hsplit
    obtain ⟨front, back, hkept, rfl, hback⟩ := hsplit
    obtain ⟨e, rest, rfl, rfl, rfl⟩ := List.map_eq_cons_iff.1 hback
    have hmem : e ∈ emissions create edits :=
      (withoutRepeats_sublist [] _).subset (hkept ▸ by simp)
    have hresolved : ∀ edit ∈ edits, edit.Resolved := fun _ => Operation.resolved_of_mapM hedits
    obtain ⟨pieces, hscan, hnames⟩ := (wellWritten_emissions hresolved hmem).exists_denotes
    refine ⟨pieces, hscan, fun rest hrest => ?_, fun name rest hrest hname hne hword => ?_⟩
    · have huse : .use "params" ∉ e.statement.occurrences :=
        fun hname => ne_params_of_mem hmem (.inl hname) rfl
      have hdefinition : .definition "params" ∉ e.statement.occurrences :=
        fun hname => ne_params_of_mem hmem (.inr hname) rfl
      obtain ⟨name, more, hmore, hparam⟩ := (hnames _ hrest).exists_param huse hdefinition
      exact ⟨name, more, hmore, hparams ▸ mem_parameterNames_of_mem hmem hparam⟩
    · exact namedByMove_of_mem hkept ((hnames _ hrest).use_or_definition hname hne hword)

/-- Different keys may be alike as names, and a key may be no name at all. -/
theorem names_of_compile_alike :
    ∃ s statements,
      compile false defaultLang [.ofAdd "/a_1" .null, .ofMove "/a-1" "/b", .ofTest "/" .null] =
        .ok s ∧
      program false [.ofAdd "/a_1" .null, .ofMove "/a-1" "/b", .ofTest "/" .null] =
        .ok statements ∧
      s.params.map Prod.fst = ["a_1_0", "__2"] ∧ statements.flatMap definitions = ["a_1_1"] ∧
      (s.params.map Prod.fst ++ statements.flatMap definitions).Nodup := by
  obtain ⟨s, hs⟩ : ∃ s, compile false defaultLang
      [.ofAdd "/a_1" .null, .ofMove "/a-1" "/b", .ofTest "/" .null] = .ok s := ⟨_, rfl⟩
  have hparams : (compile false defaultLang
      [.ofAdd "/a_1" .null, .ofMove "/a-1" "/b", .ofTest "/" .null]).toOption.map
        (fun s => s.params.map Prod.fst) = some ["a_1_0", "__2"] := by decide +kernel
  have hdefinitions : (program false
      [.ofAdd "/a_1" .null, .ofMove "/a-1" "/b", .ofTest "/" .null]).toOption.map
        (fun statements => statements.flatMap definitions) = some ["a_1_1"] := by decide +kernel
  obtain ⟨edits, statements, -, hprogram, -, -, -, hnodup, -⟩ := names_of_compile hs
  rw [hs, Except.toOption, Option.map_some, Option.some.injEq] at hparams
  rw [hprogram, Except.toOption, Option.map_some, Option.some.injEq] at hdefinitions
  exact ⟨s, statements, hs, hprogram, hparams, hdefinitions, hnodup⟩

end Patch

end Catalog
