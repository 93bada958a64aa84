import Catalog.Proofs.Patch.Parameters
import Catalog.Proofs.Patch.Repeats

/-!
# Values stay out of the script

Checking an operation and emitting its statements never look into its value. So it makes no
difference whether the value is taken out of the operation or out of the edit that it stands for,
and the statements are those of the edit without its value. Two lists of operations that differ in
their values alone are refused for the same reason, or give the same text. The values come with the
text as parameters, each under a name that is told from the path and the number of its operation.
-/

namespace Catalog.Patch

/-- The kinds of operations that come with a value. -/
def Kind.takesValue : Kind → Bool
  | .add => true
  | .replace => true
  | .test => true
  | _ => false

namespace Edit

/-- The edit with null for its value. -/
def withoutValue : Edit → Edit
  | .add p _ => .add p .null
  | .replace p _ => .replace p .null
  | .test p _ => .test p .null
  | edit => edit

theorem emissions_withoutValue (create : Bool) (index : Nat) (edit : Edit) :
    edit.withoutValue.emissions create index = edit.emissions create index := by
  cases edit <;> rfl

theorem parameterName_withoutValue (index : Nat) (edit : Edit) :
    (edit.withoutValue.parameter? index).map Prod.fst = (edit.parameter? index).map Prod.fst := by
  cases edit <;> rfl

end Edit

namespace Operation

/-- The operations agree in everything but the values that they come with. -/
structure SameButValue (a b : Operation) : Prop where
  kind : a.kind = b.kind
  path : a.path = b.path
  source : a.source = b.source
  present : a.value.isSome = b.value.isSome

/-- The operation with null for its value. -/
def withoutValue (o : Operation) : Operation := { o with value := o.value.map fun _ => .null }

theorem SameButValue.withoutValue_eq {a b : Operation} (h : a.SameButValue b) :
    a.withoutValue = b.withoutValue := by
  obtain ⟨hkind, hpath, hsource, hpresent⟩ := h
  have hvalue : (a.value.map fun _ => Json.null) = b.value.map fun _ => Json.null := by
    cases ha : a.value with
    | none =>
      have hb : b.value = none := by simpa [ha] using hpresent.symm
      rw [hb]
    | some v =>
      obtain ⟨w, hw⟩ := Option.isSome_iff_exists.1 (hpresent ▸ ha ▸ rfl : b.value.isSome = true)
      rw [hw, Option.map_some, Option.map_some]
  rw [withoutValue, withoutValue, hkind, hpath, hsource, hvalue]

theorem needValue_withoutValue (o : Operation) :
    o.withoutValue.needValue = (fun _ => Json.null) <$> o.needValue := by
  unfold needValue withoutValue
  cases o.value <;> rfl

/-- Checking an operation passes its value on without looking into it. -/
theorem resolve_withoutValue (o : Operation) :
    o.withoutValue.resolve = Edit.withoutValue <$> o.resolve := by
  have hkind : o.withoutValue.kind = o.kind := rfl
  have hpath : o.withoutValue.path = o.path := rfl
  have htarget : o.withoutValue.target = o.target := rfl
  have hsource : o.withoutValue.needSource = o.needSource := rfl
  cases hk : o.kind with
  | move =>
    simp only [resolve, hkind, hk, hpath, htarget, hsource, map_bind]
    refine bind_congr fun text => bind_congr fun target => bind_congr fun source => ?_
    split
    · rfl
    · rfl
  | _ =>
    simp only [resolve, hkind, hk, needValue_withoutValue, htarget, hsource, map_bind, map_pure,
      bind_map_left, Edit.withoutValue]

/-- The parameter of an operation with this number: its own value, under a name that is told from
its path. -/
def binding? (index : Nat) (o : Operation) : Option (String × Json) :=
  if o.kind.takesValue then do
    let p ← (Pointer.resolve o.path).toOption
    return (Edit.localName p index, ← o.value)
  else none

/-- An edit binds the value of its operation. -/
theorem Checked.parameter?_eq {o : Operation} {edit : Edit} (h : o.Checked edit) (index : Nat) :
    edit.parameter? index = o.binding? index := by
  have hbinding {p : Pointer} {value : Json} (hkind : o.kind.takesValue = true)
      (hvalue : o.needValue = .ok value) (hp : o.target = .ok p) :
      o.binding? index = some (Edit.localName p index, value) := by
    rw [binding?, if_pos hkind, (target_eq_ok hp).1, value_of_needValue hvalue]
    rfl
  have hnone (hkind : o.kind.takesValue = false) : o.binding? index = none := by
    rw [binding?, if_neg (by simp [hkind])]
  cases h with
  | add hk hvalue hp => exact (hbinding (by rw [hk]; rfl) hvalue hp).symm
  | replace hk hvalue hp => exact (hbinding (by rw [hk]; rfl) hvalue hp).symm
  | test hk hvalue hp => exact (hbinding (by rw [hk]; rfl) hvalue hp).symm
  | remove hk => exact (hnone (by rw [hk]; rfl)).symm
  | copy hk => exact (hnone (by rw [hk]; rfl)).symm
  | move hk => exact (hnone (by rw [hk]; rfl)).symm

end Operation

/-- The parameters of numbered operations. -/
def bindings (operations : List Operation) : List (String × Json) :=
  operations.zipIdx.filterMap fun (o, index) => o.binding? index

/-- The edits of operations bind the values of these operations. -/
theorem parameters_eq_bindings {operations : List Operation} {edits : List Edit}
    (h : operations.mapM Operation.resolve = .ok edits) :
    parameters edits = bindings operations := by
  have hall := Outcome.mapM_eq_ok_iff.1 h
  clear h
  rw [parameters, bindings]
  generalize 0 = start
  induction hall generalizing start with
  | nil => rfl
  | cons ho _ ih =>
    simp only [List.zipIdx_cons, List.filterMap_cons]
    rw [(Operation.checked_of_resolve ho).parameter?_eq, ih]

/-- The statements of edits do not depend on their values. -/
theorem emissions_map_withoutValue (create : Bool) (edits : List Edit) :
    emissions create (edits.map Edit.withoutValue) = emissions create edits := by
  rw [emissions, emissions, List.zipIdx_map, List.flatMap_map]
  exact List.flatMap_congr fun e _ => e.1.emissions_withoutValue create e.2

/-- The names of their parameters do not depend on them either. -/
theorem parameterNames_map_withoutValue (edits : List Edit) :
    (parameters (edits.map Edit.withoutValue)).map Prod.fst = (parameters edits).map Prod.fst := by
  rw [parameters, parameters, List.zipIdx_map, List.filterMap_map, List.map_filterMap,
    List.map_filterMap]
  exact List.filterMap_congr fun e _ => e.1.parameterName_withoutValue e.2

/-- Operations that differ in their values alone are refused for the same reason, or give scripts
with the same text and counts. Then the parameters have the same names in the same order, no name
stands for two of them, and each is the value of its own operation. -/
theorem compile_of_sameButValue {operations others : List Operation}
    (h : List.Forall₂ Operation.SameButValue operations others) (create : Bool) (lang : String) :
    (∃ e, compile create lang operations = .error e ∧ compile create lang others = .error e) ∨
      ∃ s t, compile create lang operations = .ok s ∧ compile create lang others = .ok t ∧
        s.source = t.source ∧ s.lang = t.lang ∧ s.emitted = t.emitted ∧ s.kept = t.kept ∧
        s.params.map Prod.fst = t.params.map Prod.fst ∧ (s.params.map Prod.fst).Nodup ∧
        s.params = bindings operations ∧ t.params = bindings others := by
  have hblank : operations.map Operation.withoutValue = others.map Operation.withoutValue := by
    rw [← List.forall₂_eq_eq_eq, List.forall₂_map_left_iff, List.forall₂_map_right_iff]
    exact h.imp fun _ _ hab => hab.withoutValue_eq
  have hresolve := congrArg (List.mapM Operation.resolve) hblank
  rw [Outcome.mapM_map_comm Operation.resolve_withoutValue,
    Outcome.mapM_map_comm Operation.resolve_withoutValue] at hresolve
  cases hedits : operations.mapM Operation.resolve with
  | error e =>
    cases hothers : others.mapM Operation.resolve with
    | error e' =>
      rw [hedits, hothers] at hresolve
      cases hresolve
      exact .inl ⟨e, by rw [compile, hedits]; rfl, by rw [compile, hothers]; rfl⟩
    | ok edits' =>
      rw [hedits, hothers] at hresolve
      cases hresolve
  | ok edits =>
    cases hothers : others.mapM Operation.resolve with
    | error e' =>
      rw [hedits, hothers] at hresolve
      cases hresolve
    | ok edits' =>
      rw [hedits, hothers] at hresolve
      have hsame : edits.map Edit.withoutValue = edits'.map Edit.withoutValue :=
        Except.ok.inj hresolve
      have hemissions : emissions create edits = emissions create edits' := by
        rw [← emissions_map_withoutValue, hsame, emissions_map_withoutValue]
      refine .inr ⟨_, _, by rw [compile, hedits]; rfl, by rw [compile, hothers]; rfl, ?_⟩
      refine ⟨?_, rfl, ?_, ?_, ?_, nodup_parameterNames edits, parameters_eq_bindings hedits,
        parameters_eq_bindings hothers⟩
      · simp only [hemissions]
      · simp only [hemissions]
      · simp only [hemissions]
      · simp only
        rw [← parameterNames_map_withoutValue, hsame, parameterNames_map_withoutValue]

theorem compile_of_sameButValue_quote :
    List.Forall₂ Operation.SameButValue [.ofAdd "/a" (.text "');"), .ofTest "/b" .null]
        [.ofAdd "/a" .null, .ofTest "/b" (.bool true)] ∧
      ∃ s t, compile false defaultLang [.ofAdd "/a" (.text "');"), .ofTest "/b" .null] = .ok s ∧
        compile false defaultLang [.ofAdd "/a" .null, .ofTest "/b" (.bool true)] = .ok t ∧
        s.source = t.source ∧ s.params = [("a_0", .text "');"), ("b_1", .null)] ∧
        t.params = [("a_0", .null), ("b_1", .bool true)] := by
  have hsame : List.Forall₂ Operation.SameButValue
      [.ofAdd "/a" (.text "');"), .ofTest "/b" .null]
      [.ofAdd "/a" .null, .ofTest "/b" (.bool true)] :=
    .cons ⟨rfl, rfl, rfl, rfl⟩ (.cons ⟨rfl, rfl, rfl, rfl⟩ .nil)
  refine ⟨hsame, ?_⟩
  rcases compile_of_sameButValue hsame false defaultLang with ⟨e, he, -⟩ |
    ⟨s, t, hs, ht, hsource, -, -, -, -, -, hparams, hparams'⟩
  · cases he
  · exact ⟨s, t, hs, ht, hsource, hparams.trans rfl, hparams'.trans rfl⟩

end Catalog.Patch
