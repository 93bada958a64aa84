import Catalog.Filter.Reader
import Catalog.Proofs.Outcome

/-!
# Reading what was written

Reading gives well formed trees only, and every well formed tree is read back from its written form.
So the well formed trees are exactly those that are read from some value. How deep a node may stand
is bounded by the connectives above it, and everything else is asked of each node on its own. The
two operands of a comparison can be written in swapped order under the mirrored operator.
-/

namespace Catalog

namespace Literal

/-- An instant and a date are valid texts of their kind. -/
def IsSound : Literal → Prop
  | .timestamp s => isValid .timestamp s = true
  | .date s => isValid .date s = true
  | _ => True

/-- The literal as an operand. An instant and a date are tagged. -/
def toJson : Literal → Json
  | .text s => .text s
  | .number n => .number n
  | .boolean b => .bool b
  | .timestamp s => .object [("timestamp", .text s)]
  | .date s => .object [("date", .text s)]

theorem sound_of_readTemporal {kind : TemporalKind} {v : Json} {l : Literal}
    (h : readTemporal kind v = .ok l) : l.IsSound := by
  unfold readTemporal at h
  split at h
  · split at h
    · next hvalid =>
      cases h
      cases kind with
      | timestamp => exact hvalid
      | date => exact hvalid
    · simp at h
  · simp at h

theorem sound_of_read {operator : String} {v : Json} {l : Literal}
    (h : read operator v = .ok l) : l.IsSound := by
  unfold read at h
  split at h
  · cases h
    trivial
  · cases h
    trivial
  · cases h
    trivial
  · split at h
    · exact sound_of_readTemporal h
    · split at h
      · exact sound_of_readTemporal h
      · simp at h
  · simp at h

/-- A sound literal is read back, whichever operator it is an operand of. -/
theorem read_toJson {l : Literal} (h : l.IsSound) (operator : String) :
    read operator l.toJson = .ok l := by
  cases l with
  | text s => rfl
  | number n => rfl
  | boolean b => rfl
  | timestamp s =>
    have hvalid : isValid .timestamp s = true := h
    simp [toJson, read, TemporalKind.name, readTemporal, hvalid, ofTemporal]
  | date s =>
    have hvalid : isValid .date s = true := h
    simp [toJson, read, TemporalKind.name, readTemporal, hvalid, ofTemporal]

/-- Whether a literal is read does not depend on the operator. -/
theorem read_toJson_congr (l : Literal) (a b : String) : read a l.toJson = read b l.toJson := by
  cases l with
  | timestamp s => simp only [toJson, read, TemporalKind.name, if_true]
  | date s => simp [toJson, read, TemporalKind.name]
  | _ => rfl

end Literal

/-- The sign of a comparison. -/
def Comparison.symbol : Comparison → String
  | .eq => "="
  | .neq => "<>"
  | .lt => "<"
  | .lte => "<="
  | .gt => ">"
  | .gte => ">="
  | .isNull => "isNull"

theorem Comparison.swapped_eq_isNull_iff (op : Comparison) :
    op.swapped = .isNull ↔ op = .isNull := by
  cases op <;> decide

/-- Two comparisons say the same of each other's operands. -/
inductive Comparison.Mirrors : Comparison → Comparison → Prop where
  | lt : Mirrors .lt .gt
  | gt : Mirrors .gt .lt
  | lte : Mirrors .lte .gte
  | gte : Mirrors .gte .lte
  | eq : Mirrors .eq .eq
  | neq : Mirrors .neq .neq
  | isNull : Mirrors .isNull .isNull

/-- Exchanging the operands asks for the comparison that mirrors. -/
theorem Comparison.Mirrors.swapped_eq {op mirror : Comparison} (h : op.Mirrors mirror) :
    op.swapped = mirror := by
  cases h <;> rfl

namespace Operator

/-- The names of the table are in lower case and stand for one operator each. So every name is found
under itself. -/
theorem ofName?_of_mem {name : String} {op : Operator} (h : (name, op) ∈ names) :
    ofName? name = some op := by
  have hnames : ∀ entry ∈ names, ofName? entry.1 = some entry.2 := by
    decide +kernel
  exact hnames _ h

theorem ofName?_connective (op : Connective) : ofName? op.name = some (.connective op) := by
  cases op <;> exact ofName?_of_mem (by decide)

theorem ofName?_comparison (op : Comparison) : ofName? op.symbol = some (.comparison op) := by
  cases op with
  | isNull => decide +kernel
  | _ => exact ofName?_of_mem (by decide)

theorem ofName?_spatial (relation : Relation) :
    ofName? ("s_" ++ relation.name) = some (.spatial relation) := by
  cases relation <;> exact ofName?_of_mem (by decide)

end Operator

namespace Filter

/-- The written form of an operator with its arguments. -/
def call (operator : String) (args : List Json) : Json :=
  .object [("op", .text operator), ("args", .array args)]

/-- The written form of a reference to a property. -/
def reference (property : String) : Json := .object [("property", .text property)]

mutual

/-- The written form of a filter. -/
def toJson : Filter → Json
  | .connective op children => call op.name (toJsonEach children)
  | .comparison op property literal =>
    call op.symbol (reference property :: (literal.map Literal.toJson).toList)
  | .like property pattern => call "like" [reference property, .text pattern]
  | .between property lower upper =>
    call "between" [reference property, lower.toJson, upper.toJson]
  | .oneOf property values => call "in" [reference property, .array (values.map Literal.toJson)]
  | .spatial relation property geometry =>
    call ("s_" ++ relation.name) [reference property, geometry]

/-- The written forms of several filters. -/
def toJsonEach : List Filter → List Json
  | [] => []
  | f :: rest => f.toJson :: toJsonEach rest

end

theorem toJsonEach_eq_map (fs : List Filter) : toJsonEach fs = fs.map toJson := by
  induction fs with
  | nil => rfl
  | cons f fs ih => rw [toJsonEach, ih, List.map_cons]

/-- One filter is a node of another, with so many connectives above it. -/
inductive HasNode : Filter → Nat → Filter → Prop where
  | root (f : Filter) : HasNode f 0 f
  | child {op : Connective} {children : List Filter} {c : Filter} {n : Nat} {g : Filter}
    (hc : c ∈ children) (h : HasNode c n g) : HasNode (.connective op children) (n + 1) g

/-- What is asked of a node on its own: a connective joins something, a comparison has a literal
exactly when it needs one, a geometry is an object, and literals are sound. -/
def IsSound : Filter → Prop
  | .connective _ children => children ≠ []
  | .comparison op _ literal => (literal.isSome ↔ op ≠ .isNull) ∧ ∀ l ∈ literal, l.IsSound
  | .like _ _ => True
  | .between _ lower upper => lower.IsSound ∧ upper.IsSound
  | .oneOf _ values => ∀ l ∈ values, l.IsSound
  | .spatial _ _ geometry => ∃ members, geometry = .object members

/-- Every node is sound, and at most sixty-four connectives stand above it. -/
structure WellFormed (f : Filter) : Prop where
  depth : ∀ n g, f.HasNode n g → n ≤ 64
  sound : ∀ n g, f.HasNode n g → g.IsSound

/-- The filter has no children. -/
def IsLeaf : Filter → Prop
  | .connective _ _ => False
  | _ => True

theorem HasNode.eq_of_isLeaf {f g : Filter} {n : Nat} (h : f.HasNode n g) (hf : f.IsLeaf) :
    n = 0 ∧ g = f := by
  cases h with
  | root => exact ⟨rfl, rfl⟩
  | child hc h => exact hf.elim

section

variable {operator : String} {a b : Json} {f : Filter}

theorem sound_of_readComparison {op : Comparison} (hop : op ≠ .isNull)
    (h : readComparison op operator a b = .ok f) : f.IsLeaf ∧ f.IsSound := by
  have hswapped : op.swapped ≠ .isNull := fun he => hop (op.swapped_eq_isNull_iff.1 he)
  unfold readComparison at h
  split at h
  · obtain ⟨l, hl, h⟩ := Outcome.bind_eq_ok_iff.1 h
    cases h
    exact ⟨trivial, by simpa [IsSound, hop] using Literal.sound_of_read hl⟩
  · obtain ⟨l, hl, h⟩ := Outcome.bind_eq_ok_iff.1 h
    cases h
    exact ⟨trivial, by simpa [IsSound, hswapped] using Literal.sound_of_read hl⟩
  · simp at h

theorem sound_of_readLike (h : readLike operator a b = .ok f) : f.IsLeaf ∧ f.IsSound := by
  unfold readLike at h
  split at h
  · obtain ⟨property, -, h⟩ := Outcome.bind_eq_ok_iff.1 h
    cases h
    exact ⟨trivial, trivial⟩
  · simp at h

theorem sound_of_readBetween {c : Json} (h : readBetween operator a b c = .ok f) :
    f.IsLeaf ∧ f.IsSound := by
  obtain ⟨property, -, h⟩ := Outcome.bind_eq_ok_iff.1 h
  obtain ⟨lower, hlower, h⟩ := Outcome.bind_eq_ok_iff.1 h
  obtain ⟨upper, hupper, h⟩ := Outcome.bind_eq_ok_iff.1 h
  cases h
  exact ⟨trivial, Literal.sound_of_read hlower, Literal.sound_of_read hupper⟩

theorem sound_of_readOneOf (h : readOneOf operator a b = .ok f) : f.IsLeaf ∧ f.IsSound := by
  obtain ⟨property, -, h⟩ := Outcome.bind_eq_ok_iff.1 h
  obtain ⟨values, hvalues, h⟩ := Outcome.bind_eq_ok_iff.1 h
  cases h
  refine ⟨trivial, fun l hl => ?_⟩
  unfold readLiterals at hvalues
  split at hvalues
  · obtain ⟨item, -, hitem⟩ := Outcome.exists_of_mem_mapM hvalues hl
    exact Literal.sound_of_read hitem
  · simp at hvalues

theorem sound_of_readSpatial {relation : Relation} (h : readSpatial relation operator a b = .ok f) :
    f.IsLeaf ∧ f.IsSound := by
  obtain ⟨property, -, h⟩ := Outcome.bind_eq_ok_iff.1 h
  split at h
  · cases h
    exact ⟨trivial, _, rfl⟩
  · cases h

/-- A leaf that is read is sound. -/
theorem sound_of_readLeaf {op : Operator} {args : List Json}
    (h : readLeaf op operator args = .ok f) : f.IsLeaf ∧ f.IsSound := by
  unfold readLeaf at h
  dsimp only at h
  split at h
  · obtain ⟨property, -, h⟩ := Outcome.bind_eq_ok_iff.1 h
    cases h
    exact ⟨trivial, by simp [IsSound]⟩
  · simp at h
  · next hop => exact sound_of_readComparison hop h
  · simp at h
  · exact sound_of_readLike h
  · simp at h
  · exact sound_of_readBetween h
  · exact sound_of_readBetween h
  · simp at h
  · simp at h
  · exact sound_of_readOneOf h
  · simp at h
  · exact sound_of_readSpatial h
  · simp at h
  · simp at h

end

/-- Every node of a tree that is read is sound and stands within the room. -/
theorem sound_of_readWithin {room : Nat} {v : Json} {f : Filter} (h : readWithin room v = .ok f)
    {n : Nat} {g : Filter} (hg : f.HasNode n g) : n < room ∧ g.IsSound := by
  induction room generalizing v f n with
  | zero => simp [readWithin] at h
  | succ room ih =>
    obtain ⟨⟨operator, args⟩, -, h⟩ := Outcome.bind_eq_ok_iff.1 h
    dsimp only at h
    split at h
    · cases h
    · split at h
      · cases h
      · next hargs =>
        obtain ⟨children, hchildren, h⟩ := Outcome.bind_eq_ok_iff.1 h
        cases h
        cases hg with
        | root =>
          refine ⟨Nat.succ_pos _, ?_⟩
          rintro rfl
          cases Outcome.mapM_eq_ok_iff.1 hchildren
          exact hargs rfl
        | child hc hg =>
          obtain ⟨arg, -, harg⟩ := Outcome.exists_of_mem_mapM hchildren hc
          obtain ⟨hn, hsound⟩ := ih harg hg
          exact ⟨Nat.succ_lt_succ hn, hsound⟩
    · obtain ⟨hleaf, hsound⟩ := sound_of_readLeaf h
      obtain ⟨rfl, rfl⟩ := hg.eq_of_isLeaf hleaf
      exact ⟨Nat.succ_pos _, hsound⟩

@[simp] theorem property?_reference (property : String) :
    property? (reference property) = some property := rfl

@[simp] theorem readProperty_reference (operator property : String) :
    readProperty operator (reference property) = .ok property := rfl

/-- A literal is not taken for a reference. -/
@[simp] theorem property?_literal (l : Literal) : property? l.toJson = none := by
  cases l with
  | timestamp s => simp [Literal.toJson, property?]
  | date s => simp [Literal.toJson, property?]
  | _ => rfl

theorem readCall_call (operator : String) (args : List Json) :
    readCall (call operator args) = .ok (operator, args) := by
  simp [readCall, call, List.lookup_cons]

/-- A connective is read when its arguments are, with one level less of room. -/
theorem readWithin_connective {operator : String} {op : Connective}
    (hname : Operator.ofName? operator = some (.connective op)) {room : Nat} {args : List Json}
    {children : List Filter} (hne : children ≠ [])
    (hargs : args.mapM (readWithin room) = .ok children) :
    readWithin (room + 1) (call operator args) = .ok (.connective op children) := by
  have hempty : args ≠ [] := by
    rintro rfl
    cases Outcome.mapM_eq_ok_iff.1 hargs
    exact hne rfl
  simp [readWithin, readCall_call, hname, hargs, hempty, bind, Except.bind, pure, Except.pure]

/-- Anything but a connective is read from its arguments alone. -/
theorem readWithin_leaf {operator : String} {op : Operator}
    (hname : Operator.ofName? operator = some op) (hop : ∀ c, op ≠ .connective c) (room : Nat)
    (args : List Json) :
    readWithin (room + 1) (call operator args) = readLeaf op operator args := by
  cases op with
  | connective c => exact absurd rfl (hop c)
  | _ => simp [readWithin, readCall_call, hname, bind, Except.bind]

theorem readLiterals_toJson {values : List Literal} (h : ∀ l ∈ values, l.IsSound)
    (operator : String) :
    readLiterals operator (.array (values.map Literal.toJson)) = .ok values := by
  rw [readLiterals, Outcome.mapM_eq_ok_iff, List.forall₂_map_left_iff, List.forall₂_same]
  exact fun l hl => Literal.read_toJson (h l hl) operator

/-- A property is compared with a sound literal. -/
theorem readLeaf_comparison {op : Comparison} (hop : op ≠ .isNull) {l : Literal} (hl : l.IsSound)
    (operator property : String) :
    readLeaf (.comparison op) operator [reference property, l.toJson] =
      .ok (.comparison op property (some l)) := by
  have hread : Literal.read operator l.toJson = .ok l := Literal.read_toJson hl operator
  cases op with
  | isNull => exact absurd rfl hop
  | _ => simp [readLeaf, readComparison, hread, bind, Except.bind, pure, Except.pure]

/-- A sound leaf is read back from its written form. -/
theorem readWithin_toJson_leaf {f : Filter} (hleaf : f.IsLeaf) (hsound : f.IsSound) (room : Nat) :
    readWithin (room + 1) f.toJson = .ok f := by
  cases f with
  | connective op children => exact hleaf.elim
  | comparison op property literal =>
    obtain ⟨hpresent, hliteral⟩ := hsound
    rw [toJson, readWithin_leaf (Operator.ofName?_comparison op) (by simp)]
    cases literal with
    | none =>
      obtain rfl : op = .isNull := by simpa using hpresent
      rfl
    | some l =>
      have hop : op ≠ .isNull := by simpa using hpresent
      exact readLeaf_comparison hop (hliteral l rfl) op.symbol property
  | like property pattern =>
    have hname : Operator.ofName? "like" = some .like := Operator.ofName?_of_mem (by decide)
    rw [toJson, readWithin_leaf hname (by simp)]
    rfl
  | between property lower upper =>
    have hname : Operator.ofName? "between" = some .between := Operator.ofName?_of_mem (by decide)
    rw [toJson, readWithin_leaf hname (by simp)]
    simp [readLeaf, readBetween, Literal.read_toJson hsound.1, Literal.read_toJson hsound.2, bind,
      Except.bind, pure, Except.pure]
  | oneOf property values =>
    have hname : Operator.ofName? "in" = some .oneOf := Operator.ofName?_of_mem (by decide)
    rw [toJson, readWithin_leaf hname (by simp)]
    simp [readLeaf, readOneOf, readLiterals_toJson hsound, bind, Except.bind, pure, Except.pure]
  | spatial relation property geometry =>
    obtain ⟨members, rfl⟩ := hsound
    rw [toJson, readWithin_leaf (Operator.ofName?_spatial relation) (by simp)]
    rfl

/-- A tree whose nodes are sound and stand within the room is read back from its written form. -/
theorem readWithin_toJson (room : Nat) {f : Filter}
    (h : ∀ n g, f.HasNode n g → n < room ∧ g.IsSound) : readWithin room f.toJson = .ok f := by
  induction room generalizing f with
  | zero => exact absurd (h 0 f (.root f)).1 (Nat.lt_irrefl 0)
  | succ room ih =>
    have hsound : f.IsSound := (h 0 f (.root f)).2
    by_cases hleaf : f.IsLeaf
    · exact readWithin_toJson_leaf hleaf hsound room
    · cases f with
      | connective op children =>
        have hchildren : (children.map toJson).mapM (readWithin room) = .ok children := by
          rw [Outcome.mapM_eq_ok_iff, List.forall₂_map_left_iff, List.forall₂_same]
          intro c hc
          apply ih
          intro n g hg
          obtain ⟨hn, hg⟩ := h (n + 1) g (.child hc hg)
          exact ⟨Nat.lt_of_succ_lt_succ hn, hg⟩
        rw [toJson, toJsonEach_eq_map]
        exact readWithin_connective (Operator.ofName?_connective op) hsound hchildren
      | _ => exact absurd trivial hleaf

/-- A comparison of a literal with a property is the mirrored comparison of the property with the
literal. -/
theorem readLeaf_swapped {op : Comparison} {a b : String} {property : String} {l : Literal}
    (f : Filter) :
    readLeaf (.comparison op) a [l.toJson, reference property] = .ok f ↔
      readLeaf (.comparison op.swapped) b [reference property, l.toJson] = .ok f := by
  have hread : Literal.read a l.toJson = Literal.read b l.toJson := l.read_toJson_congr a b
  cases op with
  | isNull => simp [readLeaf, Comparison.swapped]
  | _ => simp [readLeaf, readComparison, Comparison.swapped, hread]

theorem wellFormed_iff {f : Filter} :
    f.WellFormed ↔ ∀ n g, f.HasNode n g → n < maxDepth + 1 ∧ g.IsSound := by
  constructor
  · intro h n g hg
    exact ⟨Nat.lt_succ_of_le (h.depth n g hg), h.sound n g hg⟩
  · intro h
    exact ⟨fun n g hg => Nat.le_of_lt_succ (h n g hg).1, fun n g hg => (h n g hg).2⟩

/-- Exactly the well formed trees are read: every tree that some value is read as is well formed, and
every well formed tree is read back from its written form. A comparison whose operands are swapped
is read as the mirrored comparison with the operands in order, under whatever names. -/
theorem read_image :
    (∀ v f, read v = .ok f → f.WellFormed) ∧
      (∀ f : Filter, f.WellFormed → read f.toJson = .ok f) ∧
      ∀ (op mirror : Comparison) (a b property : String) (l : Literal), op.Mirrors mirror →
        Operator.ofName? a = some (.comparison op) →
        Operator.ofName? b = some (.comparison mirror) →
        (∀ f, read (call a [l.toJson, reference property]) = .ok f ↔
          read (call b [reference property, l.toJson]) = .ok f) ∧
        (op ≠ .isNull → l.IsSound →
          read (call a [l.toJson, reference property]) =
            .ok (.comparison mirror property (some l))) := by
  refine ⟨fun v f h => ?_, fun f h => ?_, fun op mirror a b property l hmirrors ha hb => ?_⟩
  · exact wellFormed_iff.2 fun n g hg => sound_of_readWithin h hg
  · exact readWithin_toJson _ (wellFormed_iff.1 h)
  · obtain rfl := hmirrors.swapped_eq
    have hswapped (f : Filter) : read (call a [l.toJson, reference property]) = .ok f ↔
        read (call b [reference property, l.toJson]) = .ok f := by
      rw [read, read, readWithin_leaf ha (by simp), readWithin_leaf hb (by simp)]
      exact readLeaf_swapped f
    refine ⟨hswapped, fun hop hl => (hswapped _).2 ?_⟩
    have hmirrored : op.swapped ≠ .isNull := fun he => hop (op.swapped_eq_isNull_iff.1 he)
    rw [read, readWithin_leaf hb (by simp)]
    exact readLeaf_comparison hmirrored hl b property

/-- A filter below so many negations. -/
def negated : Nat → Filter → Filter
  | 0, f => f
  | n + 1, f => .connective .none [negated n f]

theorem hasNode_negated (n : Nat) (f : Filter) : (negated n f).HasNode n f := by
  induction n with
  | zero => exact .root f
  | succ n ih => exact .child (List.mem_singleton_self _) ih

/-- A leaf can be negated sixty-four times, and no more. -/
theorem wellFormed_negated_iff {f : Filter} (hleaf : f.IsLeaf) (hsound : f.IsSound) (n : Nat) :
    (negated n f).WellFormed ↔ n ≤ 64 := by
  have hnodes (m : Nat) (g : Filter) (hg : (negated n f).HasNode m g) : m ≤ n ∧ g.IsSound := by
    induction n generalizing m with
    | zero =>
      obtain ⟨rfl, rfl⟩ := hg.eq_of_isLeaf hleaf
      exact ⟨Nat.le_refl 0, hsound⟩
    | succ n ih =>
      cases hg with
      | root => exact ⟨Nat.zero_le _, List.cons_ne_nil _ _⟩
      | child hc hg =>
        obtain rfl := List.mem_singleton.1 hc
        obtain ⟨hm, hg⟩ := ih _ hg
        exact ⟨Nat.succ_le_succ hm, hg⟩
  constructor
  · intro h
    exact h.depth n f (hasNode_negated n f)
  · intro hn
    exact ⟨fun m g hg => Nat.le_trans (hnodes m g hg).1 hn, fun m g hg => (hnodes m g hg).2⟩

theorem read_image_negated_sixtyFour :
    read (negated 64 (.like "id" "a%")).toJson = .ok (negated 64 (.like "id" "a%")) ∧
      (∀ v, read v ≠ .ok (negated 65 (.like "id" "a%"))) ∧
      read (call "LT" [.text "b", reference "id"]) =
        .ok (.comparison .gt "id" (some (.text "b"))) := by
  obtain ⟨hwell, hread, hswapped⟩ := read_image
  have hdepth (n : Nat) : (negated n (.like "id" "a%")).WellFormed ↔ n ≤ 64 := by
    apply wellFormed_negated_iff
    · exact trivial
    · exact trivial
  refine ⟨?_, fun v h => ?_, ?_⟩
  · exact hread _ ((hdepth 64).2 (Nat.le_refl 64))
  · have hle := (hdepth 65).1 (hwell v _ h)
    omega
  · have hlt : Operator.ofName? "LT" = some (.comparison .lt) := by decide +kernel
    have hgt : Operator.ofName? ">" = some (.comparison .gt) := Operator.ofName?_of_mem (by decide)
    exact (hswapped .lt .gt "LT" ">" "id" (.text "b") .lt hlt hgt).2 (by decide) trivial

end Filter

end Catalog
