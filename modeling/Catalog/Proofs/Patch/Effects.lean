import Catalog.Proofs.Patch.Guards

/-!
# What effects do

The statement behind the guards of an edit does to the container of its pointer what the edit does
to it: an assignment adds or replaces, a removal removes, and an assertion compares. The guards are
needed only where a script is more lenient than an edit. A guard that makes a container is an
addition as well, where there is no container yet.
-/

namespace Catalog

open Catalog.Script Segment

variable {d : Dialect} {σ : State} {p : Pointer}

namespace Script

theorem exec_append (xs ys : List Statement) :
    exec d (xs ++ ys) σ = (exec d xs σ).bind (exec d ys) := by
  simp only [exec]
  exact List.foldlM_append

theorem exec_singleton (s : Statement) : exec d [s] σ = s.exec d σ := by
  simp [exec]

/-- Statements that all leave the state as it is do so one after the other. -/
theorem exec_eq_self {statements : List Statement} (h : ∀ s ∈ statements, s.exec d σ = some σ) :
    exec d statements σ = some σ := by
  induction statements with
  | nil => rfl
  | cons s statements ih =>
    obtain ⟨hs, hrest⟩ := List.forall_mem_cons.1 h
    rw [exec, List.foldlM_cons, hs, Option.bind_eq_bind, Option.bind_some]
    exact ih hrest

/-- The state with the outcome of a change for its document. -/
def State.withDocument (σ : State) (document : Option Json) : Option State :=
  document.map fun document => { σ with document }

@[simp] theorem State.withDocument_none (σ : State) : σ.withDocument none = none := rfl

@[simp] theorem State.withDocument_some (σ : State) (j : Json) :
    σ.withDocument (some j) = some { σ with document := j } := rfl

theorem State.bind_withDocument (σ : State) (document : Option Json) :
    (document.bind fun document => some { σ with document }) = σ.withDocument document := by
  cases document with
  | none => rfl
  | some j => rfl

end Script

namespace Segment

variable {c : Expr} {j : Json}

/-- Where nothing can be added, the test whether a value can be inserted does not hold, or the
container is no list. -/
theorem addChild?_eq_none {s : Segment} (hi : s.isIndex = true)
    (hc : c.eval d σ = some j) (h : (s.isInsertable c).eval d σ ≠ some (.bool true)) (v : Json) :
    Json.addChild? v s j = none := by
  cases s with
  | key name => simp [isIndex] at hi
  | position n =>
    cases j with
    | array items =>
      have hgap : ¬n ≤ items.length := by
        simpa [isInsertable, Expr.eval, hc, Json.isArray, Json.asBool?] using h
      simp [Json.addChild?, gap?, hgap]
    | _ => simp [isInsertable, Expr.eval, hc, Json.isArray, Json.asBool?] at h
  | fromEnd k =>
    cases j with
    | array items =>
      have hgap : ¬k ≤ items.length := by
        simpa [isInsertable, isPresent, Expr.eval, hc, Json.isArray, Json.asBool?] using h
      simp [Json.addChild?, gap?, hgap]
    | _ => rfl
  | append =>
    cases j with
    | array items => simp [isInsertable, isPresent, Expr.eval, hc, Json.isArray] at h
    | _ => rfl

end Segment

namespace Patch

/-- What placing a value at an index does to a list. -/
def Placement.update (index value : Json) : Placement → Json → Option Json
  | .insert => insertAt index value
  | .overwrite => overwriteAt index value

variable {j v : Json} {value : Expr}

private theorem exec_assign_member (hj : σ.document.get? p.parents = some j)
    (hv : value.eval d σ = some v) {place : Expr} {name : String}
    (hplace : place = .field p.container name ∨ place = .item p.container (.quoted name)) :
    (Statement.assign place value).exec d σ =
      σ.withDocument (σ.document.modify? (storeAt (.text name) v) p.parents) := by
  have hchange := change_chain (d := d) hj (storeAt (.text name) v)
  rw [← Pointer.container] at hchange
  rcases hplace with rfl | rfl
  · simp [Statement.exec, hv, Expr.assign, hchange, State.bind_withDocument]
  · simp [Statement.exec, hv, Expr.assign, Expr.eval, hchange, State.bind_withDocument]

private theorem exec_placement (hj : σ.document.get? p.parents = some j)
    (hv : value.eval d σ = some v) {index : Expr} {i : Json} (hi : index.eval d σ = some i)
    (placement : Placement) :
    (placement.statement p.container index value).exec d σ =
      σ.withDocument (σ.document.modify? (placement.update i v) p.parents) := by
  have hchange := change_chain (d := d) hj (placement.update i v)
  rw [← Pointer.container] at hchange
  cases placement with
  | insert =>
    rw [Placement.update] at hchange
    simp [Placement.statement, Statement.exec, hv, hi, hchange, Placement.update,
      State.bind_withDocument]
  | overwrite =>
    rw [Placement.update] at hchange
    simp [Placement.statement, Statement.exec, hv, hi, hchange, Placement.update,
      State.bind_withDocument]

/-- An assignment makes a change of the container when storing a member and placing an element
both do what the change does. -/
private theorem exec_assignment (hj : σ.document.get? p.parents = some j)
    (hv : value.eval d σ = some v) (placement : Placement) {f : Json → Option Json}
    (hmember : ∀ name, p.key.memberName? = some name → ¬(p.key.isIndex = true ∧ j.isArray = true) →
      storeAt (.text name) v j = f j)
    (helement : p.key.isIndex = true → (p.key.memberName? = none ∨ j.isArray = true) →
      ∃ i, p.selector.eval d σ = some i ∧ placement.update i v j = f j) :
    (assignment p placement value).exec d σ =
      σ.withDocument (σ.document.modify? f p.parents) := by
  have hc : p.container.eval d σ = some j := eval_chain hj
  rw [Pointer.selector] at helement
  unfold assignment
  split
  · next name hk =>
    rw [hk] at hmember
    have hplace : p.accessor = .field p.container name ∨
        p.accessor = .item p.container (.quoted name) := by
      rw [Pointer.accessor, hk, accessor]
      split
      · exact .inl rfl
      · exact .inr rfl
    rw [exec_assign_member hj hv hplace,
      Json.modify?_congr hj (hmember name rfl (by simp [isIndex]))]
  · next n hk =>
    rw [hk] at hmember helement
    rw [Statement.exec, Expr.eval_isList hc]
    cases harray : j.isArray with
    | true =>
      obtain ⟨i, hi, hplaced⟩ := helement rfl (.inr harray)
      have hcount : (Expr.count n).eval d σ = some i := hi
      simp only [Option.bind_eq_bind, Option.bind_some, Json.asBool?, if_true]
      rw [exec_placement hj hv hcount, Json.modify?_congr hj hplaced]
    | false =>
      have hstore := hmember (Nat.repr n) rfl (by simp [harray])
      simp only [Option.bind_eq_bind, Option.bind_some, Json.asBool?, Bool.false_eq_true, if_false]
      rw [exec_assign_member hj hv (.inr rfl), Json.modify?_congr hj hstore]
  · next hkey hposition =>
    obtain ⟨hindex, hname⟩ : p.key.isIndex = true ∧ p.key.memberName? = none := by
      cases hk : p.key with
      | key name => exact absurd hk (hkey name)
      | position n => exact absurd hk (hposition n)
      | fromEnd n => exact ⟨rfl, rfl⟩
      | append => exact ⟨rfl, rfl⟩
    obtain ⟨i, hi, hplaced⟩ := helement hindex (.inl hname)
    rw [exec_placement hj hv (by rw [Pointer.selector]; exact hi), Json.modify?_congr hj hplaced]

/-- An assignment that inserts adds its value, where the test whether it can be inserted holds. -/
theorem exec_assignment_insert (hj : σ.document.get? p.parents = some j)
    (hi : p.key.isIndex = true →
      (p.key.isInsertable p.container).eval d σ = some (.bool true))
    (hv : value.eval d σ = some v) :
    (assignment p .insert value).exec d σ = σ.withDocument (addAt? p v σ.document) := by
  have hc : p.container.eval d σ = some j := eval_chain hj
  refine exec_assignment hj hv .insert (fun name hname harray => ?_) fun hindex harray => ?_
  · cases j with
    | object members => simp [Json.addChild?, hname, storeAt]
    | array items =>
      cases hk : p.key with
      | key name => rfl
      | _ => simp [hk, isIndex, Json.isArray] at harray
    | _ => rfl
  · have htest := hi hindex
    rw [Pointer.selector]
    cases hk : p.key with
    | key name => simp [hk, isIndex] at hindex
    | position n =>
      cases j with
      | array items =>
        refine ⟨.ofNat n, rfl, ?_⟩
        by_cases hle : n ≤ items.length
        · simp [Placement.update, Json.addChild?, gap?, hle]
        · simp [Placement.update, Json.addChild?, gap?, hle]
      | _ => simp [hk, memberName?, Json.isArray] at harray
    | fromEnd k =>
      rw [hk] at htest
      cases j with
      | array items =>
        have hle : k ≤ items.length := by
          simpa [isInsertable, isPresent, Expr.eval, hc, Json.isArray, Json.asBool?] using htest
        exact ⟨_, Expr.eval_minus_size hc hle,
          by simp [Placement.update, Json.addChild?, gap?, hle]⟩
      | _ =>
        simp [isInsertable, isPresent, Expr.eval, hc, Json.isArray, Json.asBool?] at htest
    | append =>
      rw [hk] at htest
      cases j with
      | array items =>
        exact ⟨.ofNat items.length, by simp [selector, Expr.eval, hc],
          by simp [Placement.update, Json.addChild?, gap?]⟩
      | _ => simp [isInsertable, isPresent, Expr.eval, hc, Json.isArray] at htest

/-- The guard that makes a container leaves one that is there as it is, and adds an empty map where
there is none. -/
theorem Emission.exec_creation (above : List Segment) (name : String) :
    (creation (chain above) name).statement.exec d σ =
      if (σ.document.get? (above ++ [.key name])).isSome then some σ
      else σ.withDocument (σ.document.modify? (Json.addChild? (.object []) (.key name)) above) := by
  rw [Json.get?_append]
  cases hj : σ.document.get? above with
  | none =>
    rw [Json.modify?_eq_none hj]
    cases hw : (chain above).eval d σ with
    | none => simp [creation, Statement.exec, Expr.eval, hw]
    | some w =>
      obtain rfl := eq_null_of_eval_chain hj hw
      simp [creation, Statement.exec, Expr.eval, hw, hasKey]
  | some j =>
    have hc : (chain above).eval d σ = some j := eval_chain hj
    cases j with
    | object members =>
      let p : Pointer := ⟨"", above, .key name⟩
      have hassign : (Statement.assign ((key name).accessor (chain above)) .newMap).exec d σ =
          σ.withDocument (σ.document.modify? (Json.addChild? (.object []) (.key name)) above) :=
        exec_assignment_insert (p := p) hj (by simp [p, isIndex]) rfl
      cases hw : members.lookup name with
      | some w => simp [creation, Statement.exec, Expr.eval, hc, hw, Json.asBool?, Json.get?]
      | none =>
        simpa [creation, Statement.exec, Expr.eval, hc, hw, Json.asBool?, Json.get?] using hassign
    | _ =>
      rw [Json.modify?_eq_none_of_get? hj rfl]
      simp [creation, Statement.exec, Expr.eval, hc, hasKey, Json.get?, Json.child?, element?]

/-- An assignment that overwrites replaces what its pointer leads to. -/
theorem exec_assignment_overwrite {w : Json} (hj : σ.document.get? p.parents = some j)
    (hw : j.child? p.key = some w) (hv : value.eval d σ = some v) :
    (assignment p .overwrite value).exec d σ =
      σ.withDocument (σ.document.modify? (Json.replaceChild? v p.key) p.parents) := by
  have hc : p.container.eval d σ = some j := eval_chain hj
  refine exec_assignment hj hv .overwrite (fun name hname harray => ?_) fun hindex harray => ?_
  · cases j with
    | object members =>
      have hl : members.lookup name = some w := by simpa [Json.child?, hname] using hw
      simp [Json.replaceChild?, hname, hl, storeAt]
    | array items =>
      cases hk : p.key with
      | key name => simp [hk, Json.child?, element?] at hw
      | _ => simp [hk, isIndex, Json.isArray] at harray
    | _ => rfl
  · rw [Pointer.selector]
    cases hk : p.key with
    | key name => simp [hk, isIndex] at hindex
    | position n =>
      cases j with
      | array items =>
        rw [hk, Json.child?_position_array] at hw
        have hlt : n < items.length := (List.getElem?_eq_some_iff.1 hw).1
        exact ⟨.ofNat n, rfl, by simp [Placement.update, Json.replaceChild?, element?, hlt]⟩
      | _ => simp [hk, memberName?, Json.isArray] at harray
    | fromEnd k =>
      rw [hk] at hw
      obtain ⟨items, rfl, hpos, hle, -⟩ := Json.child?_fromEnd_eq_some hw
      have hlt : items.length - k < items.length := by omega
      exact ⟨_, Expr.eval_minus_size hc hle,
        by simp [Placement.update, Json.replaceChild?, element?, hpos, hle, hlt]⟩
    | append => simp [hk, Json.child?_append] at hw

/-- A removal takes away what its pointer leads to, and has it as its value. -/
theorem eval_removal {w : Json} (hj : σ.document.get? p.parents = some j)
    (hw : j.child? p.key = some w) :
    (removal p).eval d σ = (removeAt? p σ.document).map fun document => (w, document) := by
  have hc : p.container.eval d σ = some j := eval_chain hj
  have hremove {k : Expr} {i : Json} (hi : k.eval d σ = some i) (hread : readAt j i = some w)
      (hcongr : removeAt i j = Json.removeChild? p.key j) :
      (Removal.remove p.container k).eval d σ =
        (removeAt? p σ.document).map fun document => (w, document) := by
    have hchange := change_chain (d := d) hj (removeAt i)
    rw [← Pointer.container, Json.modify?_congr hj hcongr] at hchange
    simp [Removal.eval, hi, hc, hread, hchange, removeAt?, Option.map_eq_bind]
  cases hk : p.key with
  | key name =>
    simp only [removal, hk, Pointer.selector, selector]
    rw [hk] at hw
    cases j with
    | object members =>
      rw [Json.child?_key] at hw
      exact hremove rfl (by simp [hw]) (by simp [removeAt, hk, Json.removeChild?, memberName?, hw])
    | _ => simp [Json.child?, element?] at hw
  | position n =>
    simp only [removal, hk]
    rw [Removal.eval, Expr.eval_isList hc]
    rw [hk] at hw
    cases j with
    | object members =>
      rw [Json.child?_position] at hw
      simp only [Json.isArray, Option.bind_eq_bind, Option.bind_some, Json.asBool?,
        Bool.false_eq_true, if_false]
      exact hremove rfl (by simp [hw]) (by simp [removeAt, hk, Json.removeChild?, memberName?, hw])
    | array items =>
      rw [Json.child?_position_array] at hw
      have hlt : n < items.length := (List.getElem?_eq_some_iff.1 hw).1
      simp only [Json.isArray, Option.bind_eq_bind, Option.bind_some, Json.asBool?, if_true]
      exact hremove rfl (by rw [readAt_array, hw])
        (by simp [hk, Json.removeChild?, element?, hlt])
    | _ => simp [Json.child?] at hw
  | fromEnd k =>
    simp only [removal, hk, Pointer.selector, selector]
    rw [hk] at hw
    obtain ⟨items, rfl, hpos, hle, hitem⟩ := Json.child?_fromEnd_eq_some hw
    have hlt : items.length - k < items.length := by omega
    exact hremove (Expr.eval_minus_size hc hle) (by rw [readAt_array, hitem])
      (by simp [hk, Json.removeChild?, element?, hpos, hle, hlt])
  | append => simp [hk, Json.child?_append] at hw

/-- An assertion compares what its pointer leads to. -/
theorem exec_assertion {w : Json} (hw : σ.document.get? p.segments = some w)
    (hv : value.eval d σ = some v) :
    (assertion p value).exec d σ = if d.equal w v then some σ else none := by
  have haccessor : p.accessor.eval d σ = some w := by
    rw [Pointer.accessor, Pointer.container, ← chain_append_singleton]
    exact eval_chain hw
  cases hequal : d.equal w v with
  | true => simp [assertion, Statement.exec, Expr.eval, haccessor, hv, hequal, Json.asBool?]
  | false => simp [assertion, Statement.exec, Expr.eval, haccessor, hv, hequal, Json.asBool?]

end Patch

end Catalog
