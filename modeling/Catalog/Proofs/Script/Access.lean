import Catalog.Proofs.Patch.Meaning
import Catalog.Proofs.Patch.Named
import Catalog.Proofs.Script.Meaning

/-!
# What accessors reach

Where the container of a segment is there, the accessor of the segment looks it up at one key. There
it reads the member or element that the segment addresses, the test of its presence says whether
there is one, and a change of the accessor is a change of just that member or element. So a chain of
accessors reads and changes what its segments lead to. Where they lead nowhere, a chain reads nothing
but null, nothing is present in it, and a change of it fails.
-/

namespace Catalog

open Script

variable {d : Dialect} {σ : State} {c : Expr}

namespace Json

/-- A distance inside of a list leads to an index. -/
theorem integer_sub_of_le {m k : Nat} (h : k ≤ m) :
    number (.integer (m - k)) = .ofNat (m - k) := by
  rw [ofNat, Int.ofNat_sub h]

/-- There is no index before the start of a list. -/
theorem integer_sub_of_lt {m k : Nat} (h : m < k) :
    ∃ n, number (.integer (m - k)) = .number (.integer (.negSucc n)) := by
  refine ⟨k - m - 1, ?_⟩
  congr
  omega

end Json

namespace Script

@[simp] theorem readAt_array (items : List Json) (n : Nat) :
    readAt (.array items) (.ofNat n) = items[n]? := rfl

@[simp] theorem readAt_object (members : List (String × Json)) (name : String) :
    readAt (.object members) (.text name) = some ((members.lookup name).getD .null) := rfl

@[simp] theorem insertAt_array (items : List Json) (n : Nat) (v : Json) :
    insertAt (.ofNat n) v (.array items) =
      if n ≤ items.length then some (.array (items.insertIdx n v)) else none := rfl

@[simp] theorem overwriteAt_array (items : List Json) (n : Nat) (v : Json) :
    overwriteAt (.ofNat n) v (.array items) =
      if n < items.length then some (.array (items.set n v)) else none := rfl

@[simp] theorem removeAt_array (items : List Json) (n : Nat) :
    removeAt (.ofNat n) (.array items) =
      if n < items.length then some (.array (items.eraseIdx n)) else none := rfl

@[simp] theorem changeAt_array (items : List Json) (n : Nat) (f : Json → Option Json) :
    changeAt (.ofNat n) f (.array items) =
      items[n]?.bind fun item => (f item).map fun v => .array (items.set n v) := by
  cases h : items[n]? with
  | none => simp [changeAt, Json.ofNat, h]
  | some item =>
    cases hf : f item with
    | none => simp [changeAt, Json.ofNat, h, hf]
    | some v => simp [changeAt, Json.ofNat, h, hf]

@[simp] theorem compare?_ofNat (test : Int → Int → Bool) (m n : Nat) :
    compare? test (.ofNat m) (.ofNat n) = some (.bool (test m n)) := rfl

@[simp] theorem sizeOf?_array (items : List Json) :
    sizeOf? (.array items) = some (.ofNat items.length) := rfl

@[simp] theorem hasKey_object (members : List (String × Json)) (name : String) :
    hasKey (.object members) (.text name) = some (.bool (members.lookup name).isSome) := rfl

attribute [local simp] Expr.eval

theorem Expr.eval_isList {j : Json} (hc : c.eval d σ = some j) :
    (Expr.isList c).eval d σ = some (.bool j.isArray) := by
  simp [hc]

/-- A choice on whether a container is a list. -/
theorem Expr.eval_choose_isList {j : Json} (hc : c.eval d σ = some j) (yes no : Expr) :
    (Expr.choose (.isList c) yes no).eval d σ =
      if j.isArray then yes.eval d σ else no.eval d σ := by
  simp [hc, Json.asBool?]

/-- A position counted from the end of a list. It lies before the start of a short list. -/
theorem Expr.eval_minus_size_eq {items : List Json} (hc : c.eval d σ = some (.array items))
    (k : Nat) :
    (Expr.minus (.size c) (.count k)).eval d σ = some (.number (.integer (items.length - k))) := by
  simp [hc, Json.asInt?, Json.ofNat]

theorem Expr.eval_minus_size {items : List Json} (hc : c.eval d σ = some (.array items)) {k : Nat}
    (hk : k ≤ items.length) :
    (Expr.minus (.size c) (.count k)).eval d σ = some (.ofNat (items.length - k)) := by
  rw [eval_minus_size_eq hc, Json.integer_sub_of_le hk]

theorem Expr.eval_minus_size_of_lt {items : List Json}
    (hc : c.eval d σ = some (.array items)) {k : Nat} (hk : items.length < k) :
    ∃ n, (Expr.minus (.size c) (.count k)).eval d σ = some (.number (.integer (.negSucc n))) := by
  obtain ⟨n, hn⟩ := Json.integer_sub_of_lt hk
  exact ⟨n, by rw [eval_minus_size_eq hc, hn]⟩

end Script

namespace Segment

/-- The key or index at which a segment is looked up in a container. An index may lie outside the
bounds of a list. -/
def key? (j : Json) : Segment → Option Json
  | key name => some (.text name)
  | position n => some (if j.isArray then .ofNat n else .text (Nat.repr n))
  | fromEnd k => do return .number (.integer ((← (← sizeOf? j).asInt?) - k))
  | append => sizeOf? j

/-- Where a segment addresses something, this is what is read and changed at its key. -/
theorem exists_key?_of_child? {s : Segment} {j v : Json} (hv : j.child? s = some v) :
    ∃ k, s.key? j = some k ∧ readAt j k = some v ∧
      ∀ f, changeAt k f j = (f v).bind fun w => Json.replaceChild? w s j := by
  cases s with
  | key name =>
    cases j with
    | object members =>
      rw [Json.child?_key] at hv
      exact ⟨.text name, rfl, by simp [hv], fun f => by
        simp [changeAt, hv, Json.replaceChild?, memberName?]⟩
    | _ => simp [Json.child?, element?] at hv
  | position n =>
    cases j with
    | object members =>
      rw [Json.child?_position] at hv
      exact ⟨.text (Nat.repr n), rfl, by simp [hv], fun f => by
        simp [changeAt, hv, Json.replaceChild?, memberName?]⟩
    | array items =>
      rw [Json.child?_position_array] at hv
      have hn : n < items.length := (List.getElem?_eq_some_iff.1 hv).1
      refine ⟨.ofNat n, rfl, by simp [hv], fun f => ?_⟩
      rw [changeAt_array, hv]
      cases hf : f v with
      | none => simp [hf]
      | some w => simp [hf, hn, Json.replaceChild?, element?]
    | _ => simp [Json.child?] at hv
  | fromEnd k =>
    obtain ⟨items, rfl, hpos, hle, hi⟩ := Json.child?_fromEnd_eq_some hv
    have hkey : (fromEnd k).key? (.array items) = some (.ofNat (items.length - k)) :=
      congrArg some (Json.integer_sub_of_le hle)
    refine ⟨_, hkey, by simp [hi], fun f => ?_⟩
    rw [changeAt_array, hi]
    cases hf : f v with
    | none => simp [hf]
    | some w => simp [hf, hpos, hle, Json.replaceChild?, element?]
  | append => simp [Json.child?_append] at hv

/-- Where a segment addresses nothing, nothing but null is read at its key, and nothing can be
changed. -/
theorem key?_of_child?_eq_none {s : Segment} {j k : Json} (hv : j.child? s = none)
    (hk : s.key? j = some k) :
    (∀ w, readAt j k = some w → w = .null) ∧ ∀ f, changeAt k f j = none := by
  cases s with
  | key name =>
    cases hk
    cases j with
    | object members =>
      rw [Json.child?_key] at hv
      simp [changeAt, hv]
    | _ => simp [readAt, changeAt]
  | position n =>
    cases hk
    cases j with
    | object members =>
      rw [Json.child?_position] at hv
      simp [Json.isArray, changeAt, hv]
    | array items =>
      rw [Json.child?_position_array] at hv
      simp [Json.isArray, hv]
    | _ => simp [readAt, changeAt]
  | fromEnd n =>
    cases j with
    | array items =>
      obtain rfl : Json.number (.integer (items.length - n)) = k := Option.some.inj hk
      rcases Nat.lt_or_ge items.length n with hlt | hle
      · obtain ⟨m, hm⟩ := Json.integer_sub_of_lt hlt
        simp [hm, readAt, changeAt]
      · -- A distance of nothing points behind the last element, and any other one to an element.
        have hmissing : items[items.length - n]? = none := by
          rcases Nat.eq_zero_or_pos n with rfl | hpos
          · simp
          · have helement : element? items.length (.fromEnd n) = some (items.length - n) := by
              simp [element?, hpos, hle]
            rw [Json.child?, helement] at hv
            exact hv
        simp [Json.integer_sub_of_le hle, hmissing]
    | object members =>
      obtain rfl : Json.number (.integer (members.length - n)) = k := Option.some.inj hk
      simp [readAt, changeAt]
    | _ => cases hk
  | append =>
    cases j with
    | array items =>
      obtain rfl : Json.ofNat items.length = k := Option.some.inj hk
      simp
    | object members =>
      obtain rfl : Json.ofNat members.length = k := Option.some.inj hk
      simp [Json.ofNat, readAt, changeAt]
    | _ => cases hk

/-- An accessor reads its container at the key of its segment. -/
theorem eval_accessor_eq {j : Json} (hc : c.eval d σ = some j) (s : Segment) :
    (s.accessor c).eval d σ = (s.key? j).bind (readAt j) := by
  cases s with
  | key name =>
    simp only [accessor]
    split
    · simp [Expr.eval, hc, key?]
    · simp [Expr.eval, hc, key?]
  | position n =>
    rw [accessor, Expr.eval_choose_isList hc, key?]
    split
    · simp [Expr.eval, hc]
    · simp [Expr.eval, hc]
  | fromEnd k =>
    simp [accessor, selector, Expr.eval, hc, key?, Json.asInt?, Json.ofNat, Option.bind_assoc]
  | append => simp [accessor, selector, Expr.eval, hc, key?]

/-- A change of an accessor changes its container at the key of its segment. -/
theorem change_accessor_eq {j : Json} (hc : c.eval d σ = some j) (s : Segment)
    (f : Json → Option Json) :
    (s.accessor c).change d σ f = (s.key? j).bind fun k => c.change d σ (changeAt k f) := by
  cases s with
  | key name =>
    simp only [accessor]
    split
    · rfl
    · rfl
  | position n =>
    cases hlist : j.isArray with
    | true => simp [accessor, Expr.change, Expr.eval, hc, hlist, Json.asBool?, key?]
    | false => simp [accessor, Expr.change, Expr.eval, hc, hlist, Json.asBool?, key?]
  | fromEnd k =>
    simp [accessor, selector, Expr.change, Expr.eval, hc, key?, Json.asInt?, Json.ofNat,
      Option.bind_assoc]
  | append => simp [accessor, selector, Expr.change, Expr.eval, hc, key?]

/-- The accessor reads what its segment addresses. -/
theorem eval_accessor {s : Segment} {j v : Json} (hc : c.eval d σ = some j)
    (hv : j.child? s = some v) : (s.accessor c).eval d σ = some v := by
  obtain ⟨k, hk, hread, -⟩ := exists_key?_of_child? hv
  rw [eval_accessor_eq hc, hk, Option.bind_some, hread]

/-- Where its segment addresses nothing, an accessor reads nothing but null. -/
theorem eq_null_of_eval_accessor {s : Segment} (h : ∀ j, c.eval d σ = some j → j.child? s = none)
    {w : Json} (hw : (s.accessor c).eval d σ = some w) : w = .null := by
  cases hc : c.eval d σ with
  | none =>
    cases s with
    | key name =>
      simp only [accessor] at hw
      split at hw
      · simp [Expr.eval, hc] at hw
      · simp [Expr.eval, hc] at hw
    | _ => simp [accessor, selector, Expr.eval, hc] at hw
  | some j =>
    rw [eval_accessor_eq hc, Option.bind_eq_some_iff] at hw
    obtain ⟨k, hk, hread⟩ := hw
    exact (key?_of_child?_eq_none (h j hc) hk).1 w hread

/-- The test of presence holds exactly when its segment addresses something. -/
theorem eval_isPresent {s : Segment} (hr : s.IsRead) (ha : s ≠ .append) {j : Json}
    (hc : c.eval d σ = some j) :
    (s.isPresent c).eval d σ = some (.bool true) ↔ (j.child? s).isSome = true := by
  cases s with
  | key name =>
    cases j with
    | object members => simp [isPresent, Expr.eval, hc]
    | _ => simp [isPresent, Expr.eval, hc, hasKey, Json.child?, element?]
  | position n =>
    rw [isPresent, Expr.eval_choose_isList hc]
    cases j with
    | object members => simp [Json.isArray, Expr.eval, hc]
    | array items => simp [Json.isArray, Expr.eval, hc, Json.child?_position_array]
    | _ => simp [Json.isArray, Expr.eval, hc, hasKey, Json.child?]
  | fromEnd k =>
    have hk := hr.distance_pos
    cases j with
    | array items =>
      have hpresent : (isPresent c (.fromEnd k)).eval d σ = some (.bool (k ≤ items.length)) := by
        simp [isPresent, Expr.eval, hc, Json.isArray, Json.asBool?]
      rw [hpresent]
      by_cases hle : k ≤ items.length
      · have hlt : items.length - k < items.length := by omega
        simp [Json.child?, element?, hk, hle, hlt]
      · simp [Json.child?, element?, hle]
    | _ => simp [isPresent, Expr.eval, hc, Json.isArray, Json.asBool?, Json.child?, memberName?]
  | append => exact absurd rfl ha

/-- A chain reads what its segments lead to. -/
theorem eval_chain {ss : List Segment} {v : Json} (h : σ.document.get? ss = some v) :
    (chain ss).eval d σ = some v := by
  induction ss using List.reverseRecOn generalizing v with
  | nil => exact h
  | append_singleton ss s ih =>
    rw [Json.get?_append, Option.bind_eq_some_iff] at h
    obtain ⟨j, hj, hv⟩ := h
    rw [chain_append_singleton]
    refine eval_accessor (ih hj) ?_
    simpa [Json.get?] using hv

/-- Where its segments lead nowhere, a chain reads nothing but null. -/
theorem eq_null_of_eval_chain {ss : List Segment} (h : σ.document.get? ss = none) {w : Json}
    (hw : (chain ss).eval d σ = some w) : w = .null := by
  induction ss using List.reverseRecOn generalizing w with
  | nil => simp [Json.get?] at h
  | append_singleton ss s ih =>
    rw [chain_append_singleton] at hw
    refine eq_null_of_eval_accessor (fun j hj => ?_) hw
    cases hi : σ.document.get? ss with
    | none =>
      rw [ih hi hj]
      rfl
    | some i =>
      obtain rfl := Option.some.inj ((eval_chain hi).symm.trans hj)
      simpa [Json.get?_append, hi, Json.get?] using h

/-- The test of presence in a chain holds exactly when the segments lead to something. -/
theorem eval_isPresent_chain {s : Segment} (hr : s.IsRead) (ha : s ≠ .append) (ss : List Segment) :
    (s.isPresent (chain ss)).eval d σ = some (.bool true) ↔
      (σ.document.get? (ss ++ [s])).isSome = true := by
  rw [Json.get?_append]
  cases hj : σ.document.get? ss with
  | some j => simpa [Json.get?] using eval_isPresent hr ha (eval_chain hj)
  | none =>
    refine iff_of_false (fun hpresent => ?_) (by simp)
    cases hw : (chain ss).eval d σ with
    | none => cases s <;> simp [isPresent, Expr.eval, hw] at hpresent
    | some w =>
      obtain rfl := eq_null_of_eval_chain hj hw
      cases (eval_isPresent hr ha hw).1 hpresent

/-- A change of a chain changes what its segments lead to, and nothing else. -/
theorem change_chain {ss : List Segment} {v : Json} (h : σ.document.get? ss = some v)
    (f : Json → Option Json) : (chain ss).change d σ f = σ.document.modify? f ss := by
  induction ss using List.reverseRecOn generalizing v f with
  | nil => rfl
  | append_singleton ss s ih =>
    rw [Json.get?_append, Option.bind_eq_some_iff] at h
    obtain ⟨j, hj, hv⟩ := h
    replace hv : j.child? s = some v := by simpa [Json.get?] using hv
    obtain ⟨k, hk, -, hchange⟩ := exists_key?_of_child? hv
    rw [chain_append_singleton, change_accessor_eq (eval_chain hj), hk, Option.bind_some, ih hj,
      Json.modify?_append]
    refine Json.modify?_congr hj ?_
    rw [hchange]
    simp [Json.modify?, hv]

/-- A change of an accessor goes wrong before its container is reached, or it is a change of the
container. -/
theorem change_accessor_cases (c : Expr) (s : Segment) (f : Json → Option Json) :
    (s.accessor c).change d σ f = none ∨
      ∃ k, (s.accessor c).change d σ f = c.change d σ (changeAt k f) := by
  cases hc : c.eval d σ with
  | some j =>
    rw [change_accessor_eq hc]
    cases hk : s.key? j with
    | none => exact .inl rfl
    | some k => exact .inr ⟨k, rfl⟩
  | none =>
    cases s with
    | key name =>
      refine .inr ⟨.text name, ?_⟩
      simp only [accessor]
      split
      · rfl
      · rfl
    | _ => exact .inl (by simp [accessor, selector, Expr.change, Expr.eval, hc])

/-- A change of a chain changes what its segments lead to, and fails where they lead nowhere. -/
theorem change_chain_eq_modify? (ss : List Segment) (f : Json → Option Json) :
    (chain ss).change d σ f = σ.document.modify? f ss := by
  cases hv : σ.document.get? ss with
  | some v => exact change_chain hv f
  | none =>
    rw [Json.modify?_eq_none hv]
    induction ss using List.reverseRecOn generalizing f with
    | nil => simp [Json.get?] at hv
    | append_singleton ss s ih =>
      rw [chain_append_singleton]
      rw [Json.get?_append, Option.bind_eq_none_iff] at hv
      cases hj : σ.document.get? ss with
      | none =>
        rcases change_accessor_cases (d := d) (σ := σ) (chain ss) s f with hnone | ⟨k, hk⟩
        · exact hnone
        · exact hk.trans (ih _ hj)
      | some j =>
        have hchild : j.child? s = none := by simpa [Json.get?] using hv j hj
        rw [change_accessor_eq (eval_chain hj)]
        refine Option.bind_eq_none_iff.2 fun k hk => ?_
        rw [change_chain hj]
        exact Json.modify?_eq_none_of_get? hj ((key?_of_child?_eq_none hchild hk).2 f)

end Segment

end Catalog
