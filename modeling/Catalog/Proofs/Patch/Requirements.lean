import Catalog.Proofs.Patch.Repeats
import Catalog.Proofs.Patch.Values

/-!
# What is asked of operations

An operation is asked for six things in a fixed order: the operand of its kind, a path that
resolves, an element for a target where its kind needs one, a source that resolves, an element for a
source, and a target that is not below the source of a move. It stands for an edit exactly when it
has all of them, and otherwise the error is that of the first one that it lacks. Nothing of this
depends on the operations around it. So a list of operations compiles exactly when each of them
does, and what is compiled from the first operations of a list is where the script of the whole list
starts.
-/

namespace Catalog

namespace Pointer

/-- The pointer leads to something below another one, segment by segment. -/
def IsBelow (p q : Pointer) : Prop := q.segments <+: p.segments ∧ q.segments ≠ p.segments

theorem isBelow_iff (p q : Pointer) :
    p.IsBelow q ↔ (p.isWithin q && q.segments.length < p.segments.length) = true := by
  rw [IsBelow, isWithin, Bool.and_eq_true, List.isPrefixOf_iff_prefix, decide_eq_true_iff]
  refine and_congr_right fun hbelow => ⟨fun hne => ?_, fun hlt heq => ?_⟩
  · exact Nat.lt_of_le_of_ne hbelow.length_le fun hlen => hne (hbelow.eq_of_length hlen)
  · exact absurd hlt (by rw [heq]; exact Nat.lt_irrefl _)

end Pointer

namespace Patch

/-- The kinds of operations that come with a source. -/
def Kind.takesSource : Kind → Bool
  | .copy => true
  | .move => true
  | _ => false

/-- The kinds of operations whose target has to be an element. -/
def Kind.takesElement : Kind → Bool
  | .replace => true
  | .remove => true
  | .test => true
  | _ => false

theorem Kind.needsTarget_eq (k : Kind) : k.needsTarget = k.takesElement := by
  cases k <;> rfl

/-- What is asked of an operation. -/
inductive Requirement where
  | operand
  | path
  /-- The path does not lead to the end of a list, for a kind that needs an element. -/
  | element
  | source
  /-- The source is not the end of a list. -/
  | sourceElement
  /-- The path of a move does not lead below its source. -/
  | outside
  deriving DecidableEq, Repr

namespace Requirement

/-- What is asked for, one after the other. -/
def inOrder : List Requirement := [operand, path, element, source, sourceElement, outside]

/-- An operation has what is asked of it. What is asked of a pointer is asked of the one that its
text resolves to, so it is not missed where the text resolves to none. -/
def Met (o : Operation) : Requirement → Prop
  | operand =>
    (o.kind.takesValue = true → o.value.isSome = true) ∧
      (o.kind.takesSource = true → o.source.isSome = true)
  | path => ∃ p, Pointer.resolve o.path = .ok p
  | element =>
    o.kind.takesElement = true → ∀ p, Pointer.resolve o.path = .ok p → p.key ≠ .append
  | source =>
    o.kind.takesSource = true → ∀ text, o.source = some text → ∃ p, Pointer.resolve text = .ok p
  | sourceElement =>
    o.kind.takesSource = true → ∀ text p, o.source = some text →
      Pointer.resolve text = .ok p → p.key ≠ .append
  | outside =>
    o.kind = .move → ∀ text p q, o.source = some text → Pointer.resolve text = .ok q →
      Pointer.resolve o.path = .ok p → ¬p.IsBelow q

/-- The error tells that an operation lacks what is asked of it. -/
def Reports (o : Operation) (e : CompileError) : Requirement → Prop
  | operand => e = .missingOperand o.kind.name (if o.kind.takesValue then .value else .source)
  | path => Pointer.resolve o.path = .error e
  | element => e = .path o.path (.endTarget o.kind.name)
  | source => ∃ text, o.source = some text ∧ Pointer.resolve text = .error e
  | sourceElement => ∃ text, o.source = some text ∧ e = .path text .endSource
  | outside => e = .path o.path .intoChild

theorem Reports.unique {o : Operation} {e e' : CompileError} {r : Requirement}
    (h : r.Reports o e) (h' : r.Reports o e') : e = e' := by
  cases r with
  | operand | element | outside => exact h.trans h'.symm
  | path => exact Except.error.inj (h.symm.trans h')
  | source =>
    obtain ⟨text, htext, herror⟩ := h
    obtain ⟨text', htext', herror'⟩ := h'
    obtain rfl := Option.some.inj (htext.symm.trans htext')
    exact Except.error.inj (herror.symm.trans herror')
  | sourceElement =>
    obtain ⟨text, htext, rfl⟩ := h
    obtain ⟨text', htext', rfl⟩ := h'
    rw [Option.some.inj (htext.symm.trans htext')]

end Requirement

namespace Operation

open Requirement

/-- The operation has everything that is asked of it. -/
def Valid (o : Operation) : Prop := ∀ r : Requirement, r.Met o

/-- The error tells of the first thing that the operation lacks. -/
def Lacks (o : Operation) (e : CompileError) : Prop :=
  ∃ earlier r later, inOrder = earlier ++ r :: later ∧ (∀ q ∈ earlier, Met o q) ∧ ¬r.Met o ∧
    r.Reports o e

theorem Lacks.not_valid {o : Operation} {e : CompileError} (h : o.Lacks e) : ¬o.Valid := by
  obtain ⟨earlier, r, later, -, -, hr, -⟩ := h
  exact fun hvalid => hr (hvalid r)

/-- There is only one first thing. -/
theorem Lacks.unique {o : Operation} {e e' : CompileError} (h : o.Lacks e) (h' : o.Lacks e') :
    e = e' := by
  obtain ⟨xs, r, ys, hsplit, hxs, hr, he⟩ := h
  obtain ⟨xs', r', ys', hsplit', hxs', hr', he'⟩ := h'
  -- Of two different first things the later one would come behind one that is lacking.
  rcases List.append_eq_append_iff.1 (hsplit.symm.trans hsplit') with ⟨mid, rfl, hmid⟩ |
    ⟨mid, rfl, hmid⟩
  · cases mid with
    | nil =>
      obtain ⟨rfl, -⟩ := List.cons.inj hmid
      exact he.unique he'
    | cons q mid =>
      obtain ⟨rfl, -⟩ := List.cons.inj hmid
      exact absurd (hxs' r (by simp)) hr
  · cases mid with
    | nil =>
      obtain ⟨rfl, -⟩ := List.cons.inj hmid
      exact he.unique he'
    | cons q mid =>
      obtain ⟨rfl, -⟩ := List.cons.inj hmid
      exact absurd (hxs r' (by simp)) hr'

variable {o : Operation} {e : CompileError}

theorem needValue_eq_error (h : o.needValue = .error e) :
    o.value = none ∧ e = .missingOperand o.kind.name .value := by
  unfold needValue at h
  split at h
  · cases h
  · next hv =>
    cases h
    exact ⟨hv, rfl⟩

theorem needSource_eq_error (h : o.needSource = .error e) :
    o.source = none ∧ e = .missingOperand o.kind.name .source := by
  unfold needSource at h
  split at h
  · cases h
  · next hs =>
    cases h
    exact ⟨hs, rfl⟩

theorem target_eq_error (h : o.target = .error e) :
    Pointer.resolve o.path = .error e ∨ ∃ p, Pointer.resolve o.path = .ok p ∧
      o.kind.takesElement = true ∧ p.key = .append ∧ e = .path o.path (.endTarget o.kind.name) := by
  rcases Outcome.bind_eq_error_iff.1 h with h | ⟨p, hp, h⟩
  · exact .inl h
  · refine .inr ⟨p, hp, ?_⟩
    split at h
    · next hend =>
      rw [Bool.and_eq_true, Pointer.isAppend, beq_iff_eq, Kind.needsTarget_eq] at hend
      cases h
      exact ⟨hend.2, hend.1, rfl⟩
    · cases h

theorem resolveSource_eq_error {text : String} (h : resolveSource text = .error e) :
    Pointer.resolve text = .error e ∨ ∃ p, Pointer.resolve text = .ok p ∧ p.key = .append ∧
      e = .path text .endSource := by
  rcases Outcome.bind_eq_error_iff.1 h with h | ⟨p, hp, h⟩
  · exact .inl h
  · refine .inr ⟨p, hp, ?_⟩
    split at h
    · next hend =>
      rw [Pointer.isAppend, beq_iff_eq] at hend
      cases h
      exact ⟨hend, rfl⟩
    · cases h

variable {p : Pointer}

theorem met_operand_of_value {value : Json} (hkind : o.kind.takesSource = false)
    (h : o.needValue = .ok value) : operand.Met o := by
  refine ⟨fun _ => ?_, fun hsource => ?_⟩
  · rw [value_of_needValue h]
    rfl
  · rw [hkind] at hsource
    cases hsource

theorem met_operand_of_source {text : String} (hkind : o.kind.takesValue = false)
    (h : o.needSource = .ok text) : operand.Met o := by
  refine ⟨fun hvalue => ?_, fun _ => ?_⟩
  · rw [hkind] at hvalue
    cases hvalue
  · rw [source_of_needSource h]
    rfl

theorem met_path_of_target (h : o.target = .ok p) : Requirement.path.Met o :=
  ⟨p, (target_eq_ok h).1⟩

theorem met_element_of_target (h : o.target = .ok p) : element.Met o := by
  intro helement q hq
  obtain rfl := Except.ok.inj ((target_eq_ok h).1.symm.trans hq)
  exact (target_eq_ok h).2 (o.kind.needsTarget_eq.trans helement)

theorem met_source_of_resolveSource {text : String} {q : Pointer} (htext : o.source = some text)
    (h : resolveSource text = .ok q) : Requirement.source.Met o ∧ sourceElement.Met o := by
  refine ⟨fun _ text' htext' => ?_, fun _ text' q' htext' hq' => ?_⟩
  · obtain rfl := Option.some.inj (htext.symm.trans htext')
    exact ⟨q, (resolveSource_eq_ok h).1⟩
  · obtain rfl := Option.some.inj (htext.symm.trans htext')
    obtain rfl := Except.ok.inj ((resolveSource_eq_ok h).1.symm.trans hq')
    exact (resolveSource_eq_ok h).2

/-- An operation without a source has what is asked of it when it has its operand and a target. -/
theorem valid_of_target (hkind : o.kind.takesSource = false) (hoperand : operand.Met o)
    (hp : o.target = .ok p) : o.Valid := by
  intro r
  have hnone {q : Prop} (h : o.kind.takesSource = true) : q := by
    rw [hkind] at h
    cases h
  cases r with
  | operand => exact hoperand
  | path => exact met_path_of_target hp
  | element => exact met_element_of_target hp
  | source => exact hnone
  | sourceElement => exact hnone
  | outside => exact fun hmove => hnone (by rw [hmove]; rfl)

/-- An operation with a source is asked for that one as well. -/
theorem valid_of_source {text : String} {q : Pointer} (hoperand : operand.Met o)
    (hp : o.target = .ok p) (htext : o.source = some text) (hq : resolveSource text = .ok q)
    (hchild : o.kind = .move → ¬p.IsBelow q) : o.Valid := by
  intro r
  cases r with
  | operand => exact hoperand
  | path => exact met_path_of_target hp
  | element => exact met_element_of_target hp
  | source => exact (met_source_of_resolveSource htext hq).1
  | sourceElement => exact (met_source_of_resolveSource htext hq).2
  | outside =>
    intro hmove text' p' q' htext' hq' hp'
    obtain rfl := Option.some.inj (htext.symm.trans htext')
    obtain rfl := Except.ok.inj ((resolveSource_eq_ok hq).1.symm.trans hq')
    obtain rfl := Except.ok.inj ((target_eq_ok hp).1.symm.trans hp')
    exact hchild hmove

/-- An operation that stands for an edit has everything that is asked of it. -/
theorem Checked.valid {edit : Edit} (h : o.Checked edit) : o.Valid := by
  cases h with
  | add hkind hvalue hp | replace hkind hvalue hp | test hkind hvalue hp =>
    have hsource : o.kind.takesSource = false := by rw [hkind]; rfl
    exact valid_of_target hsource (met_operand_of_value hsource hvalue) hp
  | remove hkind hp =>
    refine valid_of_target (by rw [hkind]; rfl) ⟨?_, ?_⟩ hp
    · simp [hkind, Kind.takesValue]
    · simp [hkind, Kind.takesSource]
  | copy hkind htext hsource hp =>
    refine valid_of_source (met_operand_of_source (by rw [hkind]; rfl) htext) hp
      (source_of_needSource htext) hsource fun hmove => ?_
    rw [hkind] at hmove
    cases hmove
  | move hkind htext hsource hp hchild =>
    refine valid_of_source (met_operand_of_source (by rw [hkind]; rfl) htext) hp
      (source_of_needSource htext) hsource fun _ hbelow => ?_
    exact hchild ((Pointer.isBelow_iff _ _).1 hbelow)

/-- Where the target of an operation is refused, the operation lacks a path or an element. -/
theorem lacks_of_target (hoperand : operand.Met o) (h : o.target = .error e) : o.Lacks e := by
  rcases target_eq_error h with hpath | ⟨p, hp, helement, hkey, rfl⟩
  · refine ⟨[operand], .path, _, rfl, List.forall_mem_singleton.2 hoperand, ?_, hpath⟩
    rintro ⟨p, hp⟩
    rw [hpath] at hp
    cases hp
  · refine ⟨[operand, .path], element, _, rfl, ?_, fun hmet => hmet helement p hp hkey, rfl⟩
    exact List.forall_mem_cons.2 ⟨hoperand, List.forall_mem_singleton.2 ⟨p, hp⟩⟩

/-- Where the source is refused, it lacks one that resolves to an element. -/
theorem lacks_of_resolveSource {text : String} (hkind : o.kind.takesSource = true)
    (hoperand : operand.Met o) (hp : o.target = .ok p) (htext : o.source = some text)
    (h : resolveSource text = .error e) : o.Lacks e := by
  have hearlier : ∀ r ∈ [operand, .path, element], Met o r :=
    List.forall_mem_cons.2 ⟨hoperand, List.forall_mem_cons.2 ⟨met_path_of_target hp,
      List.forall_mem_singleton.2 (met_element_of_target hp)⟩⟩
  rcases resolveSource_eq_error h with hsource | ⟨q, hq, hkey, rfl⟩
  · refine ⟨[operand, .path, element], .source, _, rfl, hearlier, fun hmet => ?_,
      text, htext, hsource⟩
    obtain ⟨q, hq⟩ := hmet hkind text htext
    rw [hsource] at hq
    cases hq
  · refine ⟨[operand, .path, element] ++ [.source], sourceElement, _, rfl, ?_,
      fun hmet => hmet hkind text q htext hq hkey, text, htext, rfl⟩
    refine List.forall_mem_append.2 ⟨hearlier, List.forall_mem_singleton.2 fun _ text' htext' => ?_⟩
    obtain rfl := Option.some.inj (htext.symm.trans htext')
    exact ⟨q, hq⟩

/-- An operation that comes with a value is refused for the value or for its target. -/
theorem lacks_of_value {edit : Pointer → Json → Edit} (hkind : o.kind.takesValue = true)
    (hsource : o.kind.takesSource = false)
    (h : (do let value ← o.needValue; return edit (← o.target) value : Except CompileError Edit) =
      .error e) : o.Lacks e := by
  rcases Outcome.bind_eq_error_iff.1 h with hvalue | ⟨value, hvalue, h⟩
  · obtain ⟨hnone, rfl⟩ := needValue_eq_error hvalue
    refine ⟨[], operand, _, rfl, by simp, fun hmet => ?_, by simp [Reports, hkind]⟩
    have hsome := hmet.1 hkind
    rw [hnone] at hsome
    cases hsome
  · rcases Outcome.bind_eq_error_iff.1 h with htarget | ⟨p, -, h⟩
    · exact lacks_of_target (met_operand_of_value hsource hvalue) htarget
    · cases h

/-- An operation that comes with a source is refused for the source or for its target, unless both
resolve. -/
theorem lacks_of_source {edit : Pointer → Pointer → Except CompileError Edit}
    (hkind : o.kind.takesSource = true) (hvalue : o.kind.takesValue = false)
    (h : (do
      let text ← o.needSource
      let target ← o.target
      let source ← resolveSource text
      edit source target) = .error e) :
    o.Lacks e ∨ ∃ text q p, operand.Met o ∧ o.source = some text ∧ resolveSource text = .ok q ∧
      o.target = .ok p ∧ edit q p = .error e := by
  rcases Outcome.bind_eq_error_iff.1 h with hneed | ⟨text, hneed, h⟩
  · obtain ⟨hnone, rfl⟩ := needSource_eq_error hneed
    refine .inl ⟨[], operand, _, rfl, by simp, fun hmet => ?_, by simp [Reports, hvalue]⟩
    have hsome := hmet.2 hkind
    rw [hnone] at hsome
    cases hsome
  · have hoperand := met_operand_of_source hvalue hneed
    have htext := source_of_needSource hneed
    rcases Outcome.bind_eq_error_iff.1 h with htarget | ⟨p, hp, h⟩
    · exact .inl (lacks_of_target hoperand htarget)
    · rcases Outcome.bind_eq_error_iff.1 h with hsource | ⟨q, hq, h⟩
      · exact .inl (lacks_of_resolveSource hkind hoperand hp htext hsource)
      · exact .inr ⟨text, q, p, hoperand, htext, hq, hp, h⟩

/-- An operation that stands for no edit lacks something, and its error tells of the first thing. -/
theorem lacks_of_resolve (h : o.resolve = .error e) : o.Lacks e := by
  unfold resolve at h
  split at h
  · next hk => exact lacks_of_value (by rw [hk]; rfl) (by rw [hk]; rfl) h
  · next hk => exact lacks_of_value (by rw [hk]; rfl) (by rw [hk]; rfl) h
  · next hk => exact lacks_of_value (by rw [hk]; rfl) (by rw [hk]; rfl) h
  · next hk =>
    rcases Outcome.bind_eq_error_iff.1 h with htarget | ⟨p, -, h⟩
    · refine lacks_of_target ⟨?_, ?_⟩ htarget
      · simp [hk, Kind.takesValue]
      · simp [hk, Kind.takesSource]
    · cases h
  · next hk =>
    rcases lacks_of_source (by rw [hk]; rfl) (by rw [hk]; rfl) h with h | ⟨_, _, _, -, -, -, -, h⟩
    · exact h
    · cases h
  · next hk =>
    rcases lacks_of_source (by rw [hk]; rfl) (by rw [hk]; rfl) h with
      h | ⟨text, q, p, hoperand, htext, hq, hp, h⟩
    · exact h
    · split at h
      · next hbelow =>
        cases h
        obtain ⟨hsource, helement⟩ := met_source_of_resolveSource htext hq
        refine ⟨[operand, .path, element, .source, sourceElement], outside, [], rfl, ?_,
          fun hmet => ?_, rfl⟩
        · simp only [List.forall_mem_cons, List.not_mem_nil, false_imp_iff, implies_true, and_true]
          exact ⟨hoperand, met_path_of_target hp, met_element_of_target hp, hsource, helement⟩
        · exact hmet hk text p q htext (resolveSource_eq_ok hq).1 (target_eq_ok hp).1
            ((Pointer.isBelow_iff p q).2 hbelow)
      · cases h

/-- An operation stands for an edit exactly when it has everything that is asked of it. -/
theorem exists_resolve_iff (o : Operation) : (∃ edit, o.resolve = .ok edit) ↔ o.Valid := by
  constructor
  · rintro ⟨edit, h⟩
    exact (checked_of_resolve h).valid
  · intro hvalid
    cases h : o.resolve with
    | ok edit => exact ⟨edit, rfl⟩
    | error e => exact absurd hvalid (lacks_of_resolve h).not_valid

/-- Otherwise its error is that of the first thing that it lacks. -/
theorem resolve_eq_error_iff (o : Operation) (e : CompileError) :
    o.resolve = .error e ↔ o.Lacks e := by
  refine ⟨lacks_of_resolve, fun hlacks => ?_⟩
  cases h : o.resolve with
  | ok edit => exact absurd (checked_of_resolve h).valid hlacks.not_valid
  | error e' => rw [(lacks_of_resolve h).unique hlacks]

end Operation

/-- Whether a list of operations compiles, and the error otherwise, is decided by checking them. -/
theorem compile_eq_error_iff {create : Bool} {lang : String} {operations : List Operation}
    {e : CompileError} :
    compile create lang operations = .error e ↔ operations.mapM Operation.resolve = .error e := by
  rw [compile, Outcome.bind_eq_error_iff]
  refine or_iff_left ?_
  rintro ⟨edits, -, h⟩
  cases h

theorem exists_compile_iff {create : Bool} {lang : String} {operations : List Operation} :
    (∃ s, compile create lang operations = .ok s) ↔
      ∃ edits, operations.mapM Operation.resolve = .ok edits := by
  constructor
  · rintro ⟨s, h⟩
    obtain ⟨edits, hedits, -⟩ := compile_eq_ok h
    exact ⟨edits, hedits⟩
  · rintro ⟨edits, hedits⟩
    rw [compile, hedits]
    exact ⟨_, rfl⟩

/-- The statements of more edits come behind those of the edits before them. -/
theorem emissions_append (create : Bool) (xs ys : List Edit) :
    ∃ more, emissions create (xs ++ ys) = emissions create xs ++ more := by
  rw [emissions, List.zipIdx_append, List.flatMap_append]
  exact ⟨_, rfl⟩

/-- So do their parameters. -/
theorem parameters_append (xs ys : List Edit) :
    ∃ more, parameters (xs ++ ys) = parameters xs ++ more := by
  rw [parameters, List.zipIdx_append, List.filterMap_append]
  exact ⟨_, rfl⟩

/-- The script of the first operations of a list is where the script of the list starts. -/
theorem compile_append {create : Bool} {lang : String} {first others : List Operation} {s : Script}
    (h : compile create lang (first ++ others) = .ok s) :
    ∃ t, compile create lang first = .ok t ∧ t.instructions <+: s.instructions ∧
      t.params <+: s.params := by
  obtain ⟨edits, hedits, -, hlines, hparams, -⟩ := instructions_of_compile h
  rw [List.mapM_append] at hedits
  obtain ⟨xs, hxs, hedits⟩ := Outcome.bind_eq_ok_iff.1 hedits
  obtain ⟨ys, -, hedits⟩ := Outcome.bind_eq_ok_iff.1 hedits
  obtain rfl : xs ++ ys = edits := Except.ok.inj hedits
  obtain ⟨t, ht⟩ := exists_compile_iff.2 ⟨xs, hxs⟩
  obtain ⟨edits', hedits', -, hlines', hparams', -⟩ := instructions_of_compile ht
  obtain rfl : xs = edits' := Except.ok.inj (hxs.symm.trans hedits')
  refine ⟨t, ht, ?_, ?_⟩
  · obtain ⟨more, hmore⟩ := emissions_append create xs ys
    rw [hlines, hlines', hmore, withoutRepeats_append, List.map_append]
    exact List.prefix_append _ _
  · obtain ⟨more, hmore⟩ := parameters_append xs ys
    rw [hparams, hparams', hmore]
    exact List.prefix_append _ _

/-- A list of operations compiles exactly when each of them has what is asked of it. Otherwise the
error is that of the first operation that does not, for the first thing that it lacks, whatever the
other operations are. The lines and the parameters that the first operations of a list are compiled
to are the first ones of the whole list. -/
theorem compile_by_requirements (create : Bool) (lang : String) :
    (∀ operations, (∃ s, compile create lang operations = .ok s) ↔ ∀ o ∈ operations, o.Valid) ∧
      (∀ operations e, compile create lang operations = .error e ↔
        ∃ before o after, operations = before ++ o :: after ∧ (∀ x ∈ before, x.Valid) ∧
          o.Lacks e) ∧
      ∀ first others s, compile create lang (first ++ others) = .ok s →
        ∃ t, compile create lang first = .ok t ∧ t.instructions <+: s.instructions ∧
          t.params <+: s.params := by
  refine ⟨fun operations => ?_, fun operations e => ?_, fun first others s => compile_append⟩
  · rw [exists_compile_iff, Outcome.exists_mapM_eq_ok_iff]
    simp only [Operation.exists_resolve_iff]
  · rw [compile_eq_error_iff, Outcome.mapM_eq_error_iff]
    simp only [Operation.exists_resolve_iff, Operation.resolve_eq_error_iff]

/-- A test comes before the removal of what it compares. Among three operations the second one, a
removal of the end of a list, is at fault before the third, which has no path. -/
theorem compile_by_requirements_of_removals :
    (∃ s t, compile false defaultLang ([.ofTest "/a" .null] ++ [.ofRemove "/a"]) = .ok s ∧
      compile false defaultLang [.ofTest "/a" .null] = .ok t ∧
        t.instructions <+: s.instructions ∧ t.params <+: s.params) ∧
      compile false defaultLang [.ofAdd "/a" .null, .ofRemove "/b/-", .ofTest "" .null] =
        .error (.path "/b/-" (.endTarget "remove")) := by
  obtain ⟨-, herror, hfirst⟩ := compile_by_requirements false defaultLang
  constructor
  · obtain ⟨s, hs⟩ : ∃ s, compile false defaultLang ([.ofTest "/a" .null] ++ [.ofRemove "/a"]) =
      .ok s := ⟨_, rfl⟩
    obtain ⟨t, ht, hlines, hparams⟩ := hfirst _ _ s hs
    exact ⟨s, t, hs, ht, hlines, hparams⟩
  · refine (herror _ _).2 ⟨[.ofAdd "/a" .null], .ofRemove "/b/-", [.ofTest "" .null], rfl, ?_, ?_⟩
    · exact List.forall_mem_singleton.2 ((Operation.exists_resolve_iff _).1 ⟨_, rfl⟩)
    · exact (Operation.resolve_eq_error_iff _ _).1 rfl

end Patch

end Catalog
