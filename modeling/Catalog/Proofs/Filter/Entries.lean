import Catalog.Proofs.Filter.Literals
import Catalog.Proofs.Filter.Wildcard
import Catalog.Proofs.Text.Order
import Mathlib.Logic.Relation

/-!
# Queries by their entries

A query is looked at entry by entry, in the order of the properties and then of the operators. The
value of a property that is no object takes its place among them, and there the query fails. Each
entry asks for one condition. So a query gives the conjunction of what its entries ask for, or fails
with the first entry that asks for nothing. The order in which members are written has no part in
that: with another order the result is the same, and so is the kind of an error.
-/

namespace Catalog

open Json (NamesOnce Reordered)
open Outcome (Alike)

namespace Query

/-- What an entry asks for of a property. -/
inductive Asks (property : String) : String → Json → Filter → Prop where
  | comparison {op : Comparison} {l : Literal} (hop : op ≠ .isNull) (hl : l.IsSound) :
    Asks property op.name l.toJson (.comparison op property (some l))
  | text (op : TextOperator) (operand : String) :
    Asks property op.name (.text operand) (.like property (op.likePattern operand))
  | oneOf {ls : List Literal} (h : ∀ l ∈ ls, l.IsSound) :
    Asks property "in" (.array (ls.map Literal.toJson)) (.oneOf property ls)

/-- The name is that of no operator. -/
structure IsUnknown (operator : String) : Prop where
  comparison : ∀ op : Comparison, op ≠ .isNull → operator ≠ op.name
  text : ∀ op : TextOperator, operator ≠ op.name
  oneOf : operator ≠ "in"

/-- Why an entry asks for nothing. -/
inductive Refused : String → Json → CompileError → Prop where
  | comparison {op : Comparison} {value : Json} {e : CompileError} (hop : op ≠ .isNull)
    (h : Literal.Refused op.name value e) : Refused op.name value e
  | text (op : TextOperator) {value : Json} (h : ∀ s, value ≠ .text s) :
    Refused op.name value (.argumentType op.name value)
  | list {value : Json} (h : ∀ vs, value ≠ .array vs) :
    Refused "in" value (.argumentType "in" value)
  /-- The error is that of the first item that is no literal. -/
  | item {before : List Literal} (hbefore : ∀ l ∈ before, l.IsSound) {v : Json} {e : CompileError}
    (h : Literal.Refused "in" v e) (after : List Json) :
    Refused "in" (.array (before.map Literal.toJson ++ v :: after)) e
  | unknown {operator : String} (h : IsUnknown operator) (value : Json) :
    Refused operator value (.unknownOperator operator)

/-- What is looked at in a query: an entry, or a property whose value is no object. -/
inductive Item where
  | entry (property operator : String) (value : Json)
  | stray (property : String) (value : Json)

namespace Item

/-- The property that an item is about. -/
def property : Item → String
  | entry property _ _ => property
  | stray property _ => property

/-- What an item is lowered to. -/
def lower : Item → Except CompileError Filter
  | entry property operator value => lowerEntry property operator value
  | stray property value => .error (.argumentType property value)

/-- What an item asks for. A property whose value is no object asks for nothing. -/
def Asks : Item → Filter → Prop
  | entry property operator value => Query.Asks property operator value
  | stray _ _ => fun _ => False

/-- Why an item asks for nothing. -/
def Refused : Item → CompileError → Prop
  | entry _ operator value => Query.Refused operator value
  | stray property value => fun e => e = .argumentType property value

/-- The item stands in the members of a query. -/
def StandsIn (members : List (String × Json)) : Item → Prop
  | entry property operator value =>
    ∃ entries, (property, .object entries) ∈ members ∧ (operator, value) ∈ entries
  | stray property value => (property, value) ∈ members ∧ value.IsScalar

/-- Items are in the order of their properties, and then of their operators. -/
inductive Before : Item → Item → Prop where
  | property {a b : Item} (h : a.property < b.property) : Before a b
  | operator (property : String) {operator other : String} {value w : Json}
    (h : operator < other) : Before (entry property operator value) (entry property other w)

end Item

/-- The items of one property. -/
def itemsOf (property : String) : Json → List Item
  | .object entries =>
    (Text.sortEntries entries).map fun (operator, value) => .entry property operator value
  | value => [.stray property value]

/-- The items of a query, as its members are gone through. -/
def items (members : List (String × Json)) : List Item :=
  (Text.sortEntries members).flatMap fun (property, value) => itemsOf property value

/-- One condition for several: none at all is no condition, and a single one stands for itself. -/
def conjunction? : List Filter → Option Filter
  | [] => none
  | [f] => some f
  | fs => some (.connective .all fs)

section

variable {property operator : String} {value v w : Json} {members : List (String × Json)}

theorem comparison?_eq_some_iff {op : Comparison} :
    comparison? operator = some op ↔ op ≠ .isNull ∧ operator = op.name := by
  constructor
  · intro h
    have hname := List.find?_some h
    have hmem := List.mem_of_find?_eq_some h
    refine ⟨?_, (beq_iff_eq.1 hname).symm⟩
    rintro rfl
    simp at hmem
  · rintro ⟨hop, rfl⟩
    cases op with
    | isNull => exact absurd rfl hop
    | _ => decide

theorem lowerEntry_comparison {op : Comparison} (hop : op ≠ .isNull) :
    lowerEntry property op.name value =
      (return .comparison op property (some (← Literal.read op.name value))) := by
  unfold lowerEntry
  rw [comparison?_eq_some_iff.2 ⟨hop, rfl⟩]

theorem lowerEntry_text_of_ne (op : TextOperator) (h : ∀ s, value ≠ .text s) :
    lowerEntry property op.name value = .error (.argumentType op.name value) := by
  cases value with
  | text s => exact absurd rfl (h s)
  | _ =>
    cases op with
    | startsWith => rfl
    | endsWith => rfl
    | contains => rfl

theorem lowerEntry_in (items : List Json) :
    lowerEntry property "in" (.array items) =
      (return .oneOf property (← items.mapM (Literal.read "in"))) := rfl

theorem lowerEntry_in_of_ne (h : ∀ items, value ≠ .array items) :
    lowerEntry property "in" value = .error (.argumentType "in" value) := by
  cases value with
  | array items => exact absurd rfl (h items)
  | _ => rfl

theorem lowerEntry_unknown (h : IsUnknown operator) :
    lowerEntry property operator value = .error (.unknownOperator operator) := by
  have hnone : comparison? operator = none := by
    rw [← Option.not_isSome_iff_eq_none, Option.isSome_iff_exists]
    rintro ⟨op, hop⟩
    obtain ⟨hop, hname⟩ := comparison?_eq_some_iff.1 hop
    exact h.comparison op hop hname
  have hstarts : operator ≠ "startsWith" := h.text .startsWith
  have hends : operator ≠ "endsWith" := h.text .endsWith
  have hcontains : operator ≠ "contains" := h.text .contains
  unfold lowerEntry
  rw [hnone]
  dsimp only
  rw [if_neg hstarts, if_neg hends, if_neg hcontains, if_neg h.oneOf]
  rfl

/-- An operator compares, looks for a text, asks for one of several literals, or is unknown. -/
theorem operator_cases (operator : String) :
    (∃ op : Comparison, op ≠ .isNull ∧ operator = op.name) ∨
      (∃ op : TextOperator, operator = op.name) ∨ operator = "in" ∨ IsUnknown operator := by
  by_cases hcomparison : ∃ op : Comparison, op ≠ .isNull ∧ operator = op.name
  · exact .inl hcomparison
  by_cases htext : ∃ op : TextOperator, operator = op.name
  · exact .inr (.inl htext)
  by_cases hin : operator = "in"
  · exact .inr (.inr (.inl hin))
  exact .inr (.inr (.inr
    ⟨fun op hop he => hcomparison ⟨op, hop, he⟩, fun op he => htext ⟨op, he⟩, hin⟩))

/-- An entry asks for something or is refused. -/
theorem asks_or_refused (property operator : String) (value : Json) :
    (∃ f, Asks property operator value f) ∨ ∃ e, Refused operator value e := by
  rcases operator_cases operator with ⟨op, hop, rfl⟩ | ⟨op, rfl⟩ | rfl | hunknown
  · rcases Literal.sound_or_refused op.name value with ⟨l, hl, rfl⟩ | ⟨e, he⟩
    · exact .inl ⟨_, .comparison hop hl⟩
    · exact .inr ⟨e, .comparison hop he⟩
  · by_cases htext : ∃ operand, value = .text operand
    · obtain ⟨operand, rfl⟩ := htext
      exact .inl ⟨_, .text op operand⟩
    · exact .inr ⟨_, .text op (not_exists.1 htext)⟩
  · by_cases hlist : ∃ vs, value = .array vs
    · obtain ⟨vs, rfl⟩ := hlist
      rcases Literal.all_sound_or_refused "in" vs with
        ⟨ls, hls, rfl⟩ | ⟨before, v, after, e, rfl, hbefore, hv⟩
      · exact .inl ⟨_, .oneOf hls⟩
      · exact .inr ⟨e, .item hbefore hv after⟩
    · exact .inr ⟨_, .list (not_exists.1 hlist)⟩
  · exact .inr ⟨_, .unknown hunknown value⟩

theorem lowerEntry_of_asks {f : Filter} (h : Asks property operator value f) :
    lowerEntry property operator value = .ok f := by
  cases h with
  | comparison hop hl =>
    rw [lowerEntry_comparison hop, Literal.read_toJson hl]
    rfl
  | text op operand => exact op.lowerEntry_text property operand
  | oneOf hls =>
    rw [lowerEntry_in, Literal.mapM_read_eq_ok_iff.2 ⟨rfl, hls⟩]
    rfl

theorem lowerEntry_of_refused {e : CompileError} (h : Refused operator value e) :
    lowerEntry property operator value = .error e := by
  cases h with
  | comparison hop h =>
    rw [lowerEntry_comparison hop, Literal.read_of_refused h]
    rfl
  | text op h => exact lowerEntry_text_of_ne op h
  | list h => exact lowerEntry_in_of_ne h
  | item hbefore h after =>
    rw [lowerEntry_in, Outcome.bind_pure_eq_error_iff, Literal.mapM_read_eq_error_iff]
    exact ⟨_, _, after, rfl, hbefore, h⟩
  | unknown h value => exact lowerEntry_unknown h

/-- An entry is lowered to what it asks for. -/
theorem lowerEntry_eq_ok_iff {f : Filter} :
    lowerEntry property operator value = .ok f ↔ Asks property operator value f := by
  constructor
  · intro h
    rcases asks_or_refused property operator value with ⟨f, hf⟩ | ⟨e, he⟩
    · rw [lowerEntry_of_asks hf] at h
      cases h
      exact hf
    · rw [lowerEntry_of_refused he] at h
      cases h
  · exact lowerEntry_of_asks

/-- Otherwise it fails for the reason for which it is refused. -/
theorem lowerEntry_eq_error_iff {e : CompileError} :
    lowerEntry property operator value = .error e ↔ Refused operator value e := by
  constructor
  · intro h
    rcases asks_or_refused property operator value with ⟨f, hf⟩ | ⟨e, he⟩
    · rw [lowerEntry_of_asks hf] at h
      cases h
    · rw [lowerEntry_of_refused he] at h
      cases h
      exact he
  · exact lowerEntry_of_refused

theorem Item.lower_eq_ok_iff {item : Item} {f : Filter} :
    item.lower = .ok f ↔ item.Asks f := by
  cases item with
  | entry property operator value => exact lowerEntry_eq_ok_iff
  | stray property value => simp [lower, Asks]

theorem Item.lower_eq_error_iff {item : Item} {e : CompileError} :
    item.lower = .error e ↔ item.Refused e := by
  cases item with
  | entry property operator value => exact lowerEntry_eq_error_iff
  | stray property value => simp [lower, Refused, eq_comm]

theorem itemsOf_of_isScalar (h : value.IsScalar) :
    itemsOf property value = [.stray property value] := by
  cases value with
  | object entries => exact absurd rfl (h entries)
  | _ => rfl

theorem property_of_mem_itemsOf {item : Item} (h : item ∈ itemsOf property value) :
    item.property = property := by
  by_cases hobject : ∃ entries, value = .object entries
  · obtain ⟨entries, rfl⟩ := hobject
    obtain ⟨entry, -, rfl⟩ := List.mem_map.1 h
    rfl
  · rw [itemsOf_of_isScalar (not_exists.1 hobject)] at h
    obtain rfl := List.mem_singleton.1 h
    rfl

/-- All entries are items, and all properties whose values are no objects. -/
theorem mem_items {item : Item} : item ∈ items members ↔ item.StandsIn members := by
  rw [items, List.mem_flatMap]
  constructor
  · rintro ⟨⟨property, value⟩, hmem, hitem⟩
    rw [Text.mem_sortEntries] at hmem
    by_cases hobject : ∃ entries, value = .object entries
    · obtain ⟨entries, rfl⟩ := hobject
      obtain ⟨entry, hentry, rfl⟩ := List.mem_map.1 hitem
      exact ⟨entries, hmem, Text.mem_sortEntries.1 hentry⟩
    · dsimp only at hitem
      rw [itemsOf_of_isScalar (not_exists.1 hobject)] at hitem
      obtain rfl := List.mem_singleton.1 hitem
      exact ⟨hmem, not_exists.1 hobject⟩
  · intro hstands
    cases item with
    | entry property operator value =>
      obtain ⟨entries, hmem, hentry⟩ := hstands
      exact ⟨_, Text.mem_sortEntries.2 hmem,
        List.mem_map.2 ⟨_, Text.mem_sortEntries.2 hentry, rfl⟩⟩
    | stray property value =>
      obtain ⟨hmem, hscalar⟩ := hstands
      refine ⟨_, Text.mem_sortEntries.2 hmem, ?_⟩
      dsimp only
      rw [itemsOf_of_isScalar hscalar]
      exact List.mem_singleton_self _

/-- Where no name stands twice, the items are in strictly increasing order. -/
theorem pairwise_items (h : NamesOnce (.object members)) :
    (items members).Pairwise Item.Before := by
  refine List.pairwise_flatMap.2 ⟨fun m hm => ?_, ?_⟩
  · obtain ⟨property, value⟩ := m
    have hvalue : NamesOnce value := h.of_mem (Text.mem_sortEntries.1 hm)
    by_cases hobject : ∃ entries, value = .object entries
    · obtain ⟨entries, rfl⟩ := hobject
      exact List.pairwise_map.2
        ((Text.pairwise_sortEntries hvalue.nodup).imp fun hab => .operator property hab)
    · dsimp only
      rw [itemsOf_of_isScalar (not_exists.1 hobject)]
      exact List.pairwise_singleton _ _
  · refine (Text.pairwise_sortEntries h.nodup).imp fun {a b} hab x hx y hy => .property ?_
    rw [property_of_mem_itemsOf hx, property_of_mem_itemsOf hy]
    exact hab

/-- Lowering a property is lowering its items. -/
theorem lowerProperty_eq_mapM (property : String) (value : Json) :
    lowerProperty property value = (itemsOf property value).mapM Item.lower := by
  cases value with
  | object entries =>
    rw [lowerProperty, itemsOf, List.mapM_map]
    rfl
  | _ => rfl

/-- Lowering a query is lowering its items one by one. -/
theorem lower_eq_mapM (members : List (String × Json)) : lower (.object members) =
    (return conjunction? (← (items members).mapM Item.lower)) := by
  have hgroup : (fun m : String × Json => lowerProperty m.1 m.2) =
      fun m => (itemsOf m.1 m.2).mapM Item.lower :=
    funext fun m => lowerProperty_eq_mapM m.1 m.2
  rw [lower, hgroup, items, Outcome.mapM_flatMap, bind_map_left]
  congr 1
  funext groups
  rcases groups.flatten with _ | ⟨f, _ | ⟨g, rest⟩⟩
  · rfl
  · rfl
  · rfl

/-- A query fails with the first item that asks for nothing. -/
theorem lower_eq_error_iff {e : CompileError} :
    lower (.object members) = .error e ↔ ∃ before item after,
      items members = before ++ item :: after ∧ (∀ i ∈ before, ∃ f, i.Asks f) ∧
        item.Refused e := by
  rw [lower_eq_mapM, Outcome.bind_pure_eq_error_iff, Outcome.mapM_eq_error_iff]
  simp only [Item.lower_eq_ok_iff, Item.lower_eq_error_iff]

/-- A query gives the conjunction of what its items ask for. -/
theorem lower_eq_ok_iff {r : Option Filter} :
    lower (.object members) = .ok r ↔
      ∃ fs, List.Forall₂ Item.Asks (items members) fs ∧ r = conjunction? fs := by
  rw [lower_eq_mapM, Outcome.bind_eq_ok_iff]
  refine exists_congr fun fs => and_congr ?_ ?_
  · simp only [Outcome.mapM_eq_ok_iff, Item.lower_eq_ok_iff]
  · simp only [pure, Except.pure, Except.ok.injEq, eq_comm]

end

section

variable {v w : Json}

/-- A text has no members that could stand in another order. -/
theorem ne_text_of_reordered (h : Reordered v w) :
    (∀ s, v ≠ .text s) ∧ ∀ s, w ≠ .text s := by
  cases h with
  | here | member | item => simp

theorem alike_lowerEntry (h : Reordered v w) (property operator : String) :
    Alike CompileError.kind (lowerEntry property operator v) (lowerEntry property operator w) := by
  rcases operator_cases operator with ⟨op, hop, rfl⟩ | ⟨op, rfl⟩ | rfl | hunknown
  · rw [lowerEntry_comparison hop, lowerEntry_comparison hop]
    exact (Literal.alike_read h op.name).bind _
  · obtain ⟨hv, hw⟩ := ne_text_of_reordered h
    rw [lowerEntry_text_of_ne op hv, lowerEntry_text_of_ne op hw]
    exact .error rfl
  · cases h with
    | here | member => exact .error rfl
    | item before after h =>
      rw [lowerEntry_in, lowerEntry_in]
      exact (Literal.alike_mapM_read h before after "in").bind _
  · rw [lowerEntry_unknown hunknown, lowerEntry_unknown hunknown]
    exact .refl _

/-- A value that stands at the same name before and after sorting can be exchanged for another one
with which the step at that name goes alike. -/
theorem alike_mapM_sortEntries {β : Type} {f : String × Json → Except CompileError β}
    {name : String} (h : Alike CompileError.kind (f (name, v)) (f (name, w)))
    (before after : List (String × Json)) :
    Alike CompileError.kind ((Text.sortEntries (before ++ (name, v) :: after)).mapM f)
      ((Text.sortEntries (before ++ (name, w) :: after)).mapM f) := by
  -- Both lists are sorted at once, as entries that hold a pair.
  let twice (m : String × Json) : String × Json × Json := (m.1, m.2, m.2)
  let both := before.map twice ++ (name, v, w) :: after.map twice
  have hleft : before ++ (name, v) :: after = both.map fun e => (e.1, e.2.1) := by
    simp [both, twice, Function.comp_def]
  have hright : before ++ (name, w) :: after = both.map fun e => (e.1, e.2.2) := by
    simp [both, twice, Function.comp_def]
  rw [hleft, hright, Text.sortEntries_map Prod.fst, Text.sortEntries_map Prod.snd]
  refine Outcome.alike_mapM ?_
  rw [List.forall₂_map_left_iff, List.forall₂_map_right_iff, List.forall₂_same]
  intro e he
  have hcases : (∃ m ∈ before ++ after, e = twice m) ∨ e = (name, v, w) := by
    simp only [Text.mem_sortEntries, both, List.mem_append, List.mem_cons, List.mem_map] at he
    rcases he with ⟨m, hm, rfl⟩ | rfl | ⟨m, hm, rfl⟩
    · exact .inl ⟨m, List.mem_append_left _ hm, rfl⟩
    · exact .inr rfl
    · exact .inl ⟨m, List.mem_append_right _ hm, rfl⟩
  rcases hcases with ⟨m, -, rfl⟩ | rfl
  · exact .refl _
  · exact h

theorem alike_lowerProperty (h : Reordered v w) (hv : NamesOnce v) (property : String) :
    Alike CompileError.kind (lowerProperty property v) (lowerProperty property w) := by
  cases h with
  | here hperm =>
    rw [lowerProperty, lowerProperty, Text.sortEntries_eq_of_perm hperm hv.nodup]
    exact .refl _
  | member before after name h =>
    rw [lowerProperty, lowerProperty]
    exact alike_mapM_sortEntries (alike_lowerEntry h property name) before after
  | item => exact .error rfl

/-- A query with members in another order is lowered alike. -/
theorem alike_lower (h : Reordered v w) (hv : NamesOnce v) :
    Alike CompileError.kind (lower v) (lower w) := by
  cases h with
  | here hperm =>
    rw [lower, lower, Text.sortEntries_eq_of_perm hperm hv.nodup]
    exact .refl _
  | @member before after name x y h =>
    have hmem : (name, x) ∈ before ++ (name, x) :: after := by simp
    rw [lower, lower]
    exact (alike_mapM_sortEntries (alike_lowerProperty h (hv.of_mem hmem) name) before after).bind _
  | item => exact .error rfl

theorem alike_lower_of_reflTransGen (h : Relation.ReflTransGen Reordered v w)
    (hv : NamesOnce v) : Alike CompileError.kind (lower v) (lower w) ∧ NamesOnce w := by
  induction h with
  | refl => exact ⟨.refl _, hv⟩
  | tail _ hstep ih => exact ⟨ih.1.trans (alike_lower hstep ih.2), hstep.namesOnce ih.2⟩

end

/-- A query whose objects hold no name twice is looked at item by item, in strictly increasing order
of the properties and then of the operators. These items are all of its entries, and the properties
whose values are no objects, of which there may be none. It fails with the first item that asks for
nothing, and otherwise gives the conjunction of one condition for each item. With members in another
order at any depth, it gives the same result or an error of the same kind. -/
theorem lower_by_entries :
    (∀ members, NamesOnce (.object members) → ∃ items : List Item,
      items.Pairwise Item.Before ∧ (∀ item, item ∈ items ↔ item.StandsIn members) ∧
      ((∀ m ∈ members, ∃ entries, m.2 = .object entries) →
        ∀ item ∈ items, ∃ property operator value, item = .entry property operator value) ∧
      (∀ e, lower (.object members) = .error e ↔ ∃ before item after,
        items = before ++ item :: after ∧ (∀ i ∈ before, ∃ f, i.Asks f) ∧ item.Refused e) ∧
      ∀ r, lower (.object members) = .ok r ↔
        ∃ fs, List.Forall₂ Item.Asks items fs ∧ r = conjunction? fs) ∧
    ∀ v w, NamesOnce v → Relation.ReflTransGen Reordered v w →
      Alike CompileError.kind (lower v) (lower w) := by
  refine ⟨fun members h => ⟨items members, pairwise_items h, fun item => mem_items,
    fun hobjects item hitem => ?_, fun e => lower_eq_error_iff, fun r => lower_eq_ok_iff⟩,
    fun v w hv h => (alike_lower_of_reflTransGen h hv).1⟩
  cases item with
  | entry property operator value => exact ⟨property, operator, value, rfl⟩
  | stray property value =>
    obtain ⟨hmem, hscalar⟩ := mem_items.1 hitem
    obtain ⟨entries, hentries⟩ := hobjects _ hmem
    exact absurd hentries (hscalar entries)

/-- The operand of the second query is an object, so no literal, and its members have no order. -/
theorem lower_by_entries_two_properties :
    (∃ items fs, items.Pairwise Item.Before ∧ List.Forall₂ Item.Asks items fs ∧
      conjunction? fs = some (.connective .all
        [.like "a" "x%", .comparison .lt "b" (some (.boolean true))])) ∧
    Alike CompileError.kind
      (lower (.object [("a", .object [("eq", .object [("y", .null), ("x", .null)])])]))
      (lower (.object [("a", .object [("eq", .object [("x", .null), ("y", .null)])])])) := by
  have hone {v : Json} (name : String) (h : NamesOnce v) : NamesOnce (.object [(name, v)]) :=
    .object (by simp) (List.forall_mem_singleton.2 h)
  have htwo {v w : Json} (a b : String) (hne : a ≠ b) (hv : NamesOnce v) (hw : NamesOnce w) :
      NamesOnce (.object [(a, v), (b, w)]) :=
    .object (by simpa using hne) (List.forall_mem_cons.2 ⟨hv, List.forall_mem_singleton.2 hw⟩)
  have htrue : NamesOnce (.bool true) := .scalar (by simp [Json.IsScalar])
  have htext : NamesOnce (.text "x") := .scalar (by simp [Json.IsScalar])
  have hnull : NamesOnce .null := .scalar (by simp [Json.IsScalar])
  obtain ⟨hentries, halike⟩ := lower_by_entries
  constructor
  · have hsort {α : Type} (x y : α) :
        Text.sortEntries [("b", x), ("a", y)] = [("a", y), ("b", x)] := by
      simp [Text.sortEntries, List.mergeSort, List.MergeSort.Internal.splitInTwo]
    have hresult : lower (.object [("b", .object [("lt", .bool true)]),
        ("a", .object [("startsWith", .text "x")])]) = .ok (some (.connective .all
          [.like "a" "x%", .comparison .lt "b" (some (.boolean true))])) := by
      rw [lower_eq_mapM, items, hsort]
      simp only [List.flatMap_cons, itemsOf, Text.sortEntries_singleton]
      rfl
    obtain ⟨items, hsorted, -, -, -, hok⟩ :=
      hentries _ (htwo "b" "a" (by simp) (hone "lt" htrue) (hone "startsWith" htext))
    obtain ⟨fs, hfs, hconjunction⟩ := (hok _).1 hresult
    exact ⟨items, fs, hsorted, hfs, hconjunction.symm⟩
  · have hoperand : NamesOnce (.object [("y", .null), ("x", .null)]) :=
      htwo "y" "x" (by simp) hnull hnull
    refine halike _ _ (hone "a" (hone "eq" hoperand)) (.single ?_)
    exact .member [] [] "a" (.member [] [] "eq" (.here (.swap _ _ [])))

end Query

end Catalog
