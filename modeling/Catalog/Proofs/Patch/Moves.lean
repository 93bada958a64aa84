import Catalog.Proofs.Patch.Preservation

/-!
# Moves

The guards of both pointers of a move stand before the removal, so the target is looked up twice: by
its guards in the document as it was, and by the assignment in the document that the removal leaves.
The script therefore goes through exactly when the target is open before the removal and the value
can be added there behind it. Nothing that the guards of the target let through is lost: with the
target open, the script does what removing the value and then adding it does.
-/

namespace Catalog

open Catalog.Script Segment

variable {d : Dialect} {σ : State} {p : Pointer}

/-- A change of the container of a pointer changes what its parents lead to. -/
theorem Pointer.change_container (p : Pointer) (f : Json → Option Json) :
    p.container.change d σ f = σ.document.modify? f p.parents :=
  change_chain_eq_modify? p.parents f

namespace Patch

variable {value : Expr} {v : Json}

private theorem exec_insert_of_insertAt {j : Json} (hj : σ.document.get? p.parents = some j)
    {index : Expr} (hi : ∀ i, index.eval d σ = some i → insertAt i v j = none)
    (hv : value.eval d σ = some v) :
    (Statement.insert p.container index value).exec d σ = none := by
  cases hindex : index.eval d σ with
  | none => simp [Statement.exec, hindex]
  | some i =>
    simp [Statement.exec, hindex, hv, p.change_container,
      Json.modify?_eq_none_of_get? hj (hi i hindex)]

/-- An assignment that inserts fails by itself where the test whether a value can be inserted does
not hold. -/
theorem exec_assignment_of_not_insertable {j : Json} (hj : σ.document.get? p.parents = some j)
    (hindex : p.key.isIndex = true)
    (hi : (p.key.isInsertable p.container).eval d σ ≠ some (.bool true))
    (hv : value.eval d σ = some v) : (assignment p .insert value).exec d σ = none := by
  have hc : p.container.eval d σ = some j := eval_chain hj
  unfold assignment
  cases hk : p.key with
  | key name => simp [hk, isIndex] at hindex
  | position n =>
    rw [hk] at hi
    cases harray : j.isArray with
    | false => simp [isInsertable, Expr.eval, hc, harray, Json.asBool?] at hi
    | true =>
      have hplace : (Placement.insert.statement p.container (.count n) value).exec d σ = none := by
        refine exec_insert_of_insertAt hj (fun i hcount => ?_) hv
        obtain rfl : Json.ofNat n = i := Option.some.inj hcount
        cases j with
        | array items =>
          have hgap : ¬n ≤ items.length := by
            simpa [isInsertable, Expr.eval, hc, Json.isArray, Json.asBool?] using hi
          simp [hgap]
        | _ => rfl
      dsimp only
      rw [Statement.exec, Expr.eval_isList hc, harray]
      exact hplace
  | fromEnd k =>
    rw [hk] at hi
    refine exec_insert_of_insertAt hj (fun i hplace => ?_) hv
    rw [Pointer.selector, hk] at hplace
    cases j with
    | array items =>
      have hlt : items.length < k := by
        simpa [isInsertable, isPresent, Expr.eval, hc, Json.isArray, Json.asBool?] using hi
      obtain ⟨n, hn⟩ := Expr.eval_minus_size_of_lt hc hlt
      obtain rfl := Option.some.inj (hn.symm.trans hplace)
      rfl
    | _ => rfl
  | append =>
    rw [hk] at hi
    refine exec_insert_of_insertAt hj (fun i _ => ?_) hv
    cases j with
    | array items => simp [isInsertable, isPresent, Expr.eval, hc, Json.isArray] at hi
    | _ => rfl

/-- An assignment fails where its pointer leads to no container. -/
theorem exec_assignment_of_none (hj : σ.document.get? p.parents = none) :
    (assignment p .insert value).exec d σ = none := by
  have hchange (f : Json → Option Json) : p.container.change d σ f = none := by
    rw [p.change_container, Json.modify?_eq_none hj]
  have hinsert (index : Expr) : (Statement.insert p.container index value).exec d σ = none := by
    simp [Statement.exec, hchange]
  unfold assignment
  cases hk : p.key with
  | key name =>
    rw [Pointer.accessor, hk, accessor]
    dsimp only
    split
    · simp [Statement.exec, Expr.assign, hchange]
    · simp [Statement.exec, Expr.assign, hchange]
  | position n =>
    have hmember : (Statement.assign (.item p.container (.quoted (Nat.repr n))) value).exec d σ =
        none := by
      simp [Statement.exec, Expr.assign, hchange]
    dsimp only
    rw [Statement.exec, Placement.statement, hinsert, hmember]
    simp
  | fromEnd k => exact hinsert _
  | append => exact hinsert _

/-- An assignment that inserts adds its value where this is possible, and fails where it is not,
without any guards before it. -/
theorem exec_assignment_unguarded (hv : value.eval d σ = some v) :
    (assignment p .insert value).exec d σ = σ.withDocument (addAt? p v σ.document) := by
  cases hj : σ.document.get? p.parents with
  | none =>
    rw [exec_assignment_of_none hj, addAt?, Json.modify?_eq_none hj, State.withDocument_none]
  | some j =>
    have hc : p.container.eval d σ = some j := eval_chain hj
    -- Where the test does not hold, the assignment and the addition both fail.
    by_cases hi : p.key.isIndex = true →
        (p.key.isInsertable p.container).eval d σ = some (.bool true)
    · exact exec_assignment_insert hj hi hv
    · obtain ⟨hindex, hi⟩ := Classical.not_imp.1 hi
      rw [exec_assignment_of_not_insertable hj hindex hi hv, addAt?,
        Json.modify?_eq_none_of_get? hj (addChild?_eq_none hindex hc hi v),
        State.withDocument_none]

end Patch

/-- What guards let through where a value is put in: any name, and a place that a list reaches up
to. -/
def Segment.isOpenIn (s : Segment) (j : Json) : Bool :=
  !s.isIndex || match j with
    | .array items => (s.gap? items.length).isSome
    | _ => s.memberName?.isSome

/-- The container of a pointer is there and takes a value at the pointer. -/
def Pointer.isOpen (p : Pointer) (document : Json) : Bool :=
  (document.get? p.parents).any p.key.isOpenIn

/-- The test whether a value can be inserted holds exactly where a container is open. -/
theorem Segment.eval_isInsertable {s : Segment} (hindex : s.isIndex = true) {c : Expr} {j : Json}
    (hc : c.eval d σ = some j) :
    (s.isInsertable c).eval d σ = some (.bool true) ↔ s.isOpenIn j = true := by
  cases s with
  | key name => simp [isIndex] at hindex
  | position n =>
    cases j with
    | array items =>
      by_cases hle : n ≤ items.length
      · simp [isInsertable, Expr.eval, hc, Json.isArray, Json.asBool?, isOpenIn, isIndex, gap?, hle]
      · simp [isInsertable, Expr.eval, hc, Json.isArray, Json.asBool?, isOpenIn, isIndex, gap?, hle]
    | _ =>
      simp [isInsertable, Expr.eval, hc, Json.isArray, Json.asBool?, isOpenIn, isIndex,
        memberName?]
  | fromEnd k =>
    cases j with
    | array items =>
      by_cases hle : k ≤ items.length
      · simp [isInsertable, isPresent, Expr.eval, hc, Json.isArray, Json.asBool?, isOpenIn, isIndex,
          gap?, hle]
      · simp [isInsertable, isPresent, Expr.eval, hc, Json.isArray, Json.asBool?, isOpenIn, isIndex,
          gap?, hle]
    | _ =>
      simp [isInsertable, isPresent, Expr.eval, hc, Json.isArray, Json.asBool?, isOpenIn, isIndex,
        memberName?]
  | append =>
    cases j with
    | array items => simp [isInsertable, isPresent, Expr.eval, hc, Json.isArray, isOpenIn, gap?]
    | _ =>
      simp [isInsertable, isPresent, Expr.eval, hc, Json.isArray, isOpenIn, isIndex, memberName?]

namespace Patch

/-- The guards of a pointer where a value is put in let a script go on exactly when the pointer is
open. -/
theorem Emission.exec_insertable (hp : p.Resolved) :
    exec d ((insertable p false).map Emission.statement) σ =
      if p.isOpen σ.document then some σ else none := by
  rw [insertable, List.map_append, exec_append, exec_ancestors hp, Pointer.isOpen]
  cases hj : σ.document.get? p.parents with
  | none => simp
  | some j =>
    have hc : p.container.eval d σ = some j := eval_chain hj
    simp only [Option.isSome_some, if_true, Option.bind_some, Option.any_some]
    split
    · next hindex =>
      rw [List.map_singleton, exec_singleton]
      by_cases hopen : p.key.isOpenIn j = true
      · rw [if_pos hopen, exec_demand_of_true ((eval_isInsertable hindex hc).2 hopen)]
      · rw [if_neg hopen, exec_demand_of_ne fun hi => hopen ((eval_isInsertable hindex hc).1 hi)]
    · next hindex => simp [exec, isOpenIn, hindex]

/-- Taking a value away and putting it in behind that is removing it and then adding it. -/
theorem exec_move_effects {source : Pointer} {j w : Json}
    (hj : σ.document.get? source.parents = some j) (hw : j.child? source.key = some w)
    (target : Pointer) (index : Nat) :
    (exec d (((Edit.move source target).effects index).map Emission.statement) σ).map
        State.document =
      (removeAt? source σ.document).bind (addAt? target w) := by
  rw [Edit.effects, List.map_cons, exec, List.foldlM_cons, Statement.exec, eval_removal hj hw]
  cases hdocument : removeAt? source σ.document with
  | none => simp
  | some document =>
    have hvalue : (Expr.binding (Edit.localName source index)).eval d
        ⟨document, σ.params, (Edit.localName source index, w) :: σ.bindings⟩ = some w := by
      simp [Expr.eval]
    have hassign := exec_assignment_unguarded (p := target) hvalue
    simp only [Option.map_some, Option.bind_eq_bind, Option.bind_some, List.map_cons,
      List.map_nil, List.foldlM_cons, List.foldlM_nil, Option.pure_def, hassign]
    cases addAt? target w document with
    | none => rfl
    | some result => rfl

/-- The statements of a move take the value away and then add it, provided that the target is open
before. -/
theorem Edit.Resolved.exec_move {source target : Pointer} (hr : (Edit.move source target).Resolved)
    (index : Nat) :
    (exec d (((Edit.move source target).emissions false index).map Emission.statement) σ).map
        State.document =
      if target.isOpen σ.document then (Edit.move source target).apply d.equal σ.document
      else none := by
  obtain ⟨hs, hk⟩ := hr.required source (List.mem_singleton_self source)
  have hp := hr.inserted target (List.mem_singleton_self target)
  rw [emissions_eq, guards, List.append_assoc, List.map_append, exec_append,
    Emission.exec_existing hs hk, Edit.apply]
  cases hw : σ.document.get? source.segments with
  | none => simp
  | some w =>
    rw [source.get?_segments, Option.bind_eq_some_iff] at hw
    obtain ⟨j, hj, hw⟩ := hw
    simp only [Option.isSome_some, if_true, Option.bind_some, Option.bind_eq_bind]
    -- Both pointers are looked up before anything is taken away.
    rw [List.map_append, exec_append, Emission.exec_insertable hp]
    split
    · exact exec_move_effects hj hw target index
    · rfl

/-- The script of a single move, run on any document, does what removing the value at its source
and then adding it at its target does, provided that the target is open in the document before the
removal. Where it is not, the script aborts. -/
theorem run_compile_move {lang : String} {o : Operation} {s : Script} (hkind : o.kind = .move)
    (h : compile false lang [o] = .ok s) :
    ∃ source target statements, o.resolve = .ok (.move source target) ∧
      program false [o] = .ok statements ∧ s.instructions = statements.map Statement.text ∧
        ∀ (d : Dialect) (document : Json),
          run d s.params statements document =
            if target.isOpen document then (Edit.move source target).apply d.equal document
            else none := by
  obtain ⟨edits, statements, hedits, hprogram, rfl, hlines, -⟩ := program_of_compile h
  obtain ⟨edit, ho, rfl⟩ := Outcome.exists_of_mapM_singleton hedits
  obtain ⟨hr, hedit⟩ := Operation.resolve_eq_ok ho
  rw [hkind] at hedit
  cases edit with
  | move source target =>
    have hemissions : emissions false [.move source target] =
        (Edit.move source target).emissions false 0 := by simp [emissions]
    refine ⟨source, target, _, ho, hprogram, hlines, fun d document => ?_⟩
    rw [hemissions, run, hr.exec_withoutRepeats]
    have hmove := hr.exec_move (d := d) (σ := ⟨document, s.params, []⟩) 0
    rw [Option.map_eq_bind] at hmove
    exact hmove
  | _ => cases hedit

/-- The first element of a list moves to its end. -/
theorem run_compile_move_to_end :
    ∃ s statements, compile false defaultLang [.ofMove "/a/0" "/a/-"] = .ok s ∧
      program false [.ofMove "/a/0" "/a/-"] = .ok statements ∧
      ∀ d : Dialect, run d s.params statements (.object [("a", .array [.null, .bool true])]) =
        some (.object [("a", .array [.bool true, .null])]) := by
  obtain ⟨s, hs⟩ : ∃ s, compile false defaultLang [.ofMove "/a/0" "/a/-"] = .ok s := ⟨_, rfl⟩
  obtain ⟨source, target, statements, ho, hprogram, -, hrun⟩ := run_compile_move (by decide) hs
  cases ho
  exact ⟨s, statements, hs, hprogram, fun d => (hrun d _).trans rfl⟩

/-- The script of a move would do what removing the value and then adding it does, with the target
looked up in the document behind the removal alone. -/
def MovesAsRemoveThenAdd : Prop :=
  ∀ (o : Operation) (s : Script) (statements : List Statement), o.kind = .move →
    compile false defaultLang [o] = .ok s → program false [o] = .ok statements →
      ∀ (d : Dialect) (document : Json),
        run d s.params statements document = o.apply d.equal document

/-- The second element of a list is no list itself before the first one is taken away, and behind
that it is one, which takes the removed value. The guards of the target abort the script. -/
theorem not_movesAsRemoveThenAdd : ¬MovesAsRemoveThenAdd := by
  intro h
  let d : Dialect := ⟨fun _ _ => true, fun _ => ""⟩
  let document : Json := .object [("a", .array [.bool true, .null, .array []])]
  let edit : Edit := .move ⟨"/a/0", [.key "a"], .position 0⟩
    ⟨"/a/1/-", [.key "a", .position 1], .append⟩
  have hedit : (Operation.ofMove "/a/0" "/a/1/-").resolve = .ok edit := rfl
  obtain ⟨s, hs⟩ : ∃ s, compile false defaultLang [.ofMove "/a/0" "/a/1/-"] = .ok s := ⟨_, rfl⟩
  obtain ⟨edits, statements, hedits, hprogram, hstatements, -, -⟩ := program_of_compile hs
  obtain rfl : [edit] = edits := Except.ok.inj hedits
  have hemissions : emissions false [edit] = edit.emissions false 0 := rfl
  have hrun : run d s.params statements document = none := by
    rw [run, hstatements, hemissions, (Operation.resolve_eq_ok hedit).1.exec_withoutRepeats]
    rfl
  have happly : (Operation.ofMove "/a/0" "/a/1/-").apply d.equal document =
      some (.object [("a", .array [.null, .array [.bool true]])]) := rfl
  have heq := h _ s statements rfl hs hprogram d document
  rw [hrun, happly] at heq
  cases heq

end Patch

end Catalog
