import Catalog.Proofs.Patch.Effects

/-!
# Scripts do what operations do

The statements of an edit abort exactly when the edit fails, and otherwise leave the document that
the edit yields. Inside one edit the guards stand before everything else, and none of them changes
the document, so dropping the repeated ones makes no difference.
-/

namespace Catalog.Patch

open Catalog.Script Segment

variable {d : Dialect} {σ : State} {p : Pointer}

/-- The guards of a pointer where a value is put in, followed by the assignment, add the value. -/
theorem exec_insertable (hp : p.Resolved) {value : Expr} {v : Json}
    (hv : value.eval d σ = some v) :
    exec d ((Emission.insertable p false ++
        [Emission.mk .effect (assignment p .insert value)]).map Emission.statement) σ =
      σ.withDocument (addAt? p v σ.document) := by
  rw [Emission.insertable, List.append_assoc, List.map_append, exec_append,
    Emission.exec_ancestors hp]
  cases hj : σ.document.get? p.parents with
  | none => simp [addAt?, Json.modify?_eq_none hj]
  | some j =>
    have hc : p.container.eval d σ = some j := eval_chain hj
    simp only [Option.isSome_some, if_true, Option.bind_some]
    split
    · next hindex =>
      rw [List.singleton_append, List.map_cons, exec, List.foldlM_cons]
      by_cases hi : (p.key.isInsertable p.container).eval d σ = some (.bool true)
      · rw [Emission.exec_demand_of_true hi, Option.bind_eq_bind, Option.bind_some]
        exact (exec_singleton _).trans (exec_assignment_insert hj (fun _ => hi) hv)
      · rw [Emission.exec_demand_of_ne hi]
        have hnone := addChild?_eq_none hindex hc hi v
        simp [addAt?, Json.modify?_eq_none_of_get? hj hnone]
    · next hindex =>
      rw [List.nil_append]
      exact (exec_singleton _).trans
        (exec_assignment_insert hj (fun h => absurd h hindex) hv)

/-- The guards of a pointer whose member has to be there, followed by an effect on it, fail like the
change that the effect makes. -/
theorem exec_existing_effect (hp : p.Resolved) (hk : p.key ≠ .append) {s : Statement} {role : Role}
    {outcome : Option State}
    (hs : ∀ j w, σ.document.get? p.parents = some j → j.child? p.key = some w →
      s.exec d σ = outcome)
    (hnone : σ.document.get? p.segments = none → outcome = none) :
    exec d ((Emission.existing p ++ [Emission.mk role s]).map Emission.statement) σ = outcome := by
  rw [List.map_append, exec_append, Emission.exec_existing hp hk]
  cases hw : σ.document.get? p.segments with
  | none => simp [hnone hw]
  | some w =>
    rw [p.get?_segments, Option.bind_eq_some_iff] at hw
    obtain ⟨j, hj, hw⟩ := hw
    simp only [Option.isSome_some, if_true, Option.bind_some]
    exact (exec_singleton _).trans (hs j w hj hw)

/-- A change of a container fails when it fails on everything that lacks the addressed member and
the member is not there. -/
theorem modify?_eq_none_of_segments {f : Json → Option Json} {j : Json}
    (h : j.get? p.segments = none) (hf : ∀ c, Json.child? p.key c = none → f c = none) :
    j.modify? f p.parents = none := by
  rw [p.get?_segments] at h
  cases hc : j.get? p.parents with
  | none => exact Json.modify?_eq_none hc
  | some c =>
    rw [hc, Option.bind_some] at h
    exact Json.modify?_eq_none_of_get? hc (hf c h)

namespace Edit

/-- The parameter of an edit has its value. -/
def IsBound (edit : Edit) (index : Nat) (σ : State) : Prop :=
  ∀ name value, edit.parameter? index = some (name, value) → σ.params.lookup name = some value

/-- The statements of an edit that is no move do what the edit does. -/
theorem Resolved.exec_emissions {edit : Edit} (hr : edit.Resolved)
    (hmove : ∀ source target, edit ≠ .move source target) {index : Nat}
    (hb : edit.IsBound index σ) :
    exec d ((edit.emissions false index).map Emission.statement) σ =
      σ.withDocument (edit.apply d.equal σ.document) := by
  cases edit with
  | add p v =>
    have hp := hr.inserted p (List.mem_singleton_self p)
    exact exec_insertable hp (hb _ v rfl)
  | replace p v =>
    obtain ⟨hp, hk⟩ := hr.required p (List.mem_singleton_self p)
    refine exec_existing_effect hp hk ?_ fun hnone => ?_
    · intro j w hj hw
      exact exec_assignment_overwrite hj hw (hb _ v rfl)
    · rw [apply, modify?_eq_none_of_segments hnone fun c hc => Json.replaceChild?_eq_none hc v]
      rfl
  | remove p =>
    obtain ⟨hp, hk⟩ := hr.required p (List.mem_singleton_self p)
    refine exec_existing_effect hp hk ?_ fun hnone => ?_
    · intro j w hj hw
      rw [Statement.exec, eval_removal hj hw]
      cases hd : removeAt? p σ.document with
      | none => simp [apply, hd]
      | some document => simp [apply, hd]
    · rw [apply, removeAt?,
        modify?_eq_none_of_segments hnone fun c hc => Json.removeChild?_eq_none hc]
      rfl
  | test p v =>
    obtain ⟨hp, hk⟩ := hr.required p (List.mem_singleton_self p)
    refine exec_existing_effect hp hk ?_ fun hnone => ?_
    · intro j w hj hw
      have hsegments : σ.document.get? p.segments = some w := by
        rw [p.get?_segments, hj, Option.bind_some, hw]
      have hv : (Expr.param (localName p index)).eval d σ = some v := hb _ v rfl
      rw [exec_assertion hsegments hv]
      cases hequal : d.equal w v with
      | true => simp [apply, hsegments, hequal]
      | false => simp [apply, hsegments, hequal]
    · simp [apply, hnone]
  | copy source p =>
    obtain ⟨hs, hk⟩ := hr.required source (List.mem_singleton_self source)
    have hp := hr.inserted p (List.mem_singleton_self p)
    rw [emissions, List.append_assoc, List.map_append, exec_append,
      Emission.exec_existing hs hk]
    cases hw : σ.document.get? source.segments with
    | none => simp [apply, hw]
    | some w =>
      have hsource : source.accessor.eval d σ = some w := by
        rw [Pointer.accessor, Pointer.container, ← chain_append_singleton]
        exact eval_chain hw
      simp only [Option.isSome_some, if_true, Option.bind_some]
      rw [exec_insertable hp hsource]
      simp [apply, hw]
  | move source p => exact absurd rfl (hmove source p)

end Edit

/-- Lists of demands with the same members do the same. -/
private theorem exec_demands_congr {gs hs : List Emission}
    (hg : ∀ g ∈ gs, ∃ c pointer, g = Emission.demand c pointer)
    (hmem : ∀ g, g ∈ hs ↔ g ∈ gs) :
    exec d (hs.map Emission.statement) σ = exec d (gs.map Emission.statement) σ := by
  have hpass {es : List Emission} (h : ∀ e ∈ es, e.statement.exec d σ = some σ) :
      exec d (es.map Emission.statement) σ = some σ := exec_eq_self (List.forall_mem_map.2 h)
  have hfail {es : List Emission} (hsub : ∀ e ∈ es, e ∈ gs) {g : Emission} (hm : g ∈ es)
      (h : g.statement.exec d σ ≠ some σ) : exec d (es.map Emission.statement) σ = none := by
    induction es with
    | nil => simp at hm
    | cons e es ih =>
      obtain ⟨he, hes⟩ := List.forall_mem_cons.1 hsub
      obtain ⟨c, pointer, rfl⟩ := hg e he
      rw [List.map_cons, exec, List.foldlM_cons]
      by_cases hc : c.eval d σ = some (.bool true)
      · have hpassed := Emission.exec_demand_of_true hc pointer
        rw [hpassed, Option.bind_eq_bind, Option.bind_some]
        rcases List.mem_cons.1 hm with rfl | hm
        · exact absurd hpassed h
        · exact ih hes hm
      · rw [Emission.exec_demand_of_ne hc]
        rfl
  by_cases hall : ∀ g ∈ gs, g.statement.exec d σ = some σ
  · rw [hpass hall, hpass fun g hm => hall g ((hmem g).1 hm)]
  · push Not at hall
    obtain ⟨g, hm, hne⟩ := hall
    rw [hfail (fun _ h => h) hm hne, hfail (fun e he => (hmem e).1 he) ((hmem g).2 hm) hne]

/-- Dropping the repeated guards of an edit makes no difference. -/
theorem Edit.Resolved.exec_withoutRepeats {edit : Edit} (hr : edit.Resolved) (index : Nat) :
    exec d ((withoutRepeats [] (edit.emissions false index)).map Emission.statement) σ =
      exec d ((edit.emissions false index).map Emission.statement) σ := by
  have hguards : exec d ((withoutRepeats [] (edit.guards false)).map Emission.statement) σ =
      exec d ((edit.guards false).map Emission.statement) σ := by
    refine exec_demands_congr (fun g hg => ?_) fun g => ?_
    · obtain ⟨above, s, -, habout⟩ := hr.isAbout_of_mem_guards hg
      exact habout.exists_demand
    · refine ⟨fun hm => (withoutRepeats_sublist _ _).subset hm, fun hg => ?_⟩
      obtain ⟨k, hk, hline⟩ := exists_mem_withoutRepeats [] hg
      rw [List.nil_append] at hk
      have hkg := (withoutRepeats_sublist _ _).subset hk
      obtain ⟨above, s, hread, habout⟩ := hr.isAbout_of_mem_guards hg
      obtain ⟨above', s', hread', habout'⟩ := hr.isAbout_of_mem_guards hkg
      have hemission {e : Emission} (he : e ∈ edit.guards false) :
          e ∈ edit.emissions false index := by
        rw [edit.emissions_eq]
        exact List.mem_append_left _ he
      have hw := hr.wellWritten_emissions (hemission hg)
      have hw' := hr.wellWritten_emissions (hemission hkg)
      rw [Emission.line, Emission.line, hw.normalize_text, hw'.normalize_text] at hline
      rwa [← habout'.eq_of_text habout hread' hread hw' hw hline]
  have heffects : ∀ e ∈ edit.effects index, e.role ≠ .guard := fun _ => role_of_mem_effects
  rw [edit.emissions_eq, withoutRepeats_append, withoutRepeats_eq_self _ heffects,
    List.map_append, List.map_append, exec_append, exec_append, hguards]

/-- An operation that is checked does what its edit does. -/
theorem Operation.apply_of_resolve {o : Operation} {edit : Edit} (h : o.resolve = .ok edit)
    (equal : Json → Json → Bool) (document : Json) :
    o.apply equal document = edit.apply equal document := by
  cases checked_of_resolve h with
  | add hkind hv hp | replace hkind hv hp | test hkind hv hp =>
    simp [Operation.apply, (target_eq_ok hp).1, hkind, value_of_needValue hv, Except.toOption]
  | remove hkind hp => simp [Operation.apply, (target_eq_ok hp).1, hkind, Except.toOption]
  | copy hkind htext hs hp | move hkind htext hs hp =>
    simp [Operation.apply, (target_eq_ok hp).1, hkind, source_of_needSource htext,
      (resolveSource_eq_ok hs).1, Except.toOption]

/-- The script of a single operation other than a move, run on any document, aborts exactly when the
operation fails, and otherwise leaves exactly the document that the operation yields. -/
theorem run_compile {lang : String} {o : Operation} {s : Script} (hmove : o.kind ≠ .move)
    (h : compile false lang [o] = .ok s) :
    ∃ statements, program false [o] = .ok statements ∧
      s.instructions = statements.map Statement.text ∧
      ∀ (d : Dialect) (document : Json),
        run d s.params statements document = o.apply d.equal document := by
  obtain ⟨edits, statements, hedits, hprogram, rfl, hlines, hparams⟩ := program_of_compile h
  obtain ⟨edit, ho, rfl⟩ : ∃ edit, o.resolve = .ok edit ∧ edits = [edit] := by
    cases Outcome.mapM_eq_ok_iff.1 hedits with
    | cons ho hnil =>
      cases hnil
      exact ⟨_, ho, rfl⟩
  obtain ⟨hr, hkind⟩ := Operation.resolve_eq_ok ho
  have hedit : ∀ source target, edit ≠ .move source target := by
    rintro source target rfl
    exact hmove hkind.symm
  have hemissions : emissions false [edit] = edit.emissions false 0 := by
    simp [emissions]
  refine ⟨_, hprogram, hlines, fun d document => ?_⟩
  have hbound : edit.IsBound 0 ⟨document, s.params, []⟩ := by
    intro name value hname
    simp [hparams, parameters, hname]
  rw [run, hemissions, hr.exec_withoutRepeats, hr.exec_emissions hedit hbound,
    Operation.apply_of_resolve ho]
  cases edit.apply d.equal document with
  | none => rfl
  | some result => rfl

theorem run_compile_add_before_last :
    ∃ s statements, compile false defaultLang [.ofAdd "/a/-1" (.text "x")] = .ok s ∧
      program false [.ofAdd "/a/-1" (.text "x")] = .ok statements ∧
      ∀ d : Dialect, run d s.params statements (.object [("a", .array [.null, .bool true])]) =
        some (.object [("a", .array [.null, .text "x", .bool true])]) := by
  obtain ⟨s, hs⟩ : ∃ s, compile false defaultLang [.ofAdd "/a/-1" (.text "x")] = .ok s := ⟨_, rfl⟩
  obtain ⟨statements, hprogram, -, hrun⟩ := run_compile (by decide) hs
  exact ⟨s, statements, hs, hprogram, fun d => (hrun d _).trans rfl⟩

end Catalog.Patch
