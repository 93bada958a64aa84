import Catalog.Patch.Script
import Catalog.Proofs.Patch.Resolved
import Catalog.Proofs.Script.Atoms
import Catalog.Proofs.Script.Settled
import Mathlib.Data.List.Induction

/-!
# What emitted statements are written with

The atoms of an emitted statement all come from the pointers of its edit. Accessors write a member
behind a point only when its name is an identifier, and parameters and bindings are named by
sanitized words. Pointers that are resolved hold no line break. So every emitted statement is well
written, and the line it becomes is its own text: the pass that mends accessor chains has nothing to
do.
-/

namespace Catalog

open Script

theorem isWord_append {a b : String} (ha : IsWord a) (hb : IsWord b) : IsWord (a ++ b) := by
  intro c hc
  rw [String.toList_append] at hc
  exact (List.mem_append.1 hc).elim (ha c) (hb c)

namespace Segment

/-- The atoms that a segment is written with. A name is quoted everywhere but in the accessor of an
identifier. -/
def atoms : Segment → List Atom
  | .key name =>
    if isIdentifier name then [.literal name, .member name] else [.literal name]
  | .position n => [.literal (Nat.repr n)]
  | _ => []

theorem mem_atoms_key {name : String} {a : Atom} :
    a ∈ (key name).atoms ↔ a = .literal name ∨ (isIdentifier name = true ∧ a = .member name) := by
  simp only [atoms]
  split
  · next hi => simp [hi]
  · next hi => simp [hi]

/-- A literal of a segment is its text. -/
theorem text_of_literal_mem_atoms {s : Segment} {t : String} (h : .literal t ∈ s.atoms) :
    s = .key t ∨ ∃ n, s = .position n ∧ t = Nat.repr n := by
  cases s with
  | key name =>
    rcases mem_atoms_key.1 h with ht | ⟨-, ht⟩
    · cases ht
      exact .inl rfl
    · cases ht
  | position n => exact .inr ⟨n, rfl, by simpa [atoms] using h⟩
  | _ => simp [atoms] at h

/-- A member behind a point is a key that is an identifier. -/
theorem key_of_member_mem_atoms {s : Segment} {name : String} (h : .member name ∈ s.atoms) :
    s = .key name ∧ isIdentifier name = true := by
  cases s with
  | key other =>
    rcases mem_atoms_key.1 h with ht | ⟨hi, ht⟩
    · cases ht
    · cases ht
      exact ⟨rfl, hi⟩
  | _ => simp [atoms] at h

theorem value_notMem_atoms (s : Segment) (name : String) : .value name ∉ s.atoms := by
  cases s with
  | key other => simp [mem_atoms_key]
  | _ => simp [atoms]

/-- The atoms of a segment on a single line are well written. -/
theorem wellWritten_of_mem_atoms {s : Segment} (hs : Text.SingleLine s.text) {a : Atom}
    (h : a ∈ s.atoms) : a.WellWritten := by
  cases a with
  | literal t =>
    rcases text_of_literal_mem_atoms h with rfl | ⟨n, rfl, rfl⟩
    · exact hs
    · exact hs
  | member name => exact isWord_of_isIdentifier (key_of_member_mem_atoms h).2
  | value name => exact absurd h (value_notMem_atoms s name)

variable {c : Expr} {s : Segment} {a : Atom}

theorem mem_atoms_of_accessor (h : a ∈ (s.accessor c).atoms) : a ∈ c.atoms ∨ a ∈ s.atoms := by
  cases s with
  | key name =>
    simp only [accessor] at h
    split at h
    · next hi =>
      rcases List.mem_append.1 h with h | h
      · exact .inl h
      · exact .inr (mem_atoms_key.2 (.inr ⟨hi, List.mem_singleton.1 h⟩))
    · rcases List.mem_append.1 h with h | h
      · exact .inl h
      · exact .inr (mem_atoms_key.2 (.inl (List.mem_singleton.1 h)))
  | position n => simpa [accessor, Expr.atoms, atoms, or_assoc] using h
  | fromEnd n => simpa [accessor, selector, Expr.atoms, atoms] using h
  | append => simpa [accessor, selector, Expr.atoms, atoms] using h

theorem mem_atoms_of_selector (h : a ∈ (s.selector c).atoms) : a ∈ c.atoms ∨ a ∈ s.atoms := by
  cases s with
  | key name => exact .inr (mem_atoms_key.2 (.inl (List.mem_singleton.1 h)))
  | position n => simp [selector, Expr.atoms] at h
  | fromEnd n => simpa [selector, Expr.atoms, atoms] using h
  | append => exact .inl h

theorem mem_atoms_of_isPresent (h : a ∈ (s.isPresent c).atoms) : a ∈ c.atoms ∨ a ∈ s.atoms := by
  cases s with
  | key name =>
    rcases List.mem_append.1 h with h | h
    · exact .inl h
    · exact .inr (mem_atoms_key.2 (.inl (List.mem_singleton.1 h)))
  | position n => simpa [isPresent, Expr.atoms, atoms, or_assoc] using h
  | fromEnd n => simpa [isPresent, Expr.atoms, atoms] using h
  | append => exact .inl h

theorem mem_atoms_of_isInsertable (h : a ∈ (s.isInsertable c).atoms) :
    a ∈ c.atoms ∨ a ∈ s.atoms := by
  unfold isInsertable at h
  split at h
  · simp only [Expr.atoms, List.append_nil, List.mem_append, or_self] at h
    exact .inl h
  · exact mem_atoms_of_isPresent h

/-- A chain is written with the atoms of its segments. -/
theorem exists_of_mem_atoms_chain {ss : List Segment} (h : a ∈ (chain ss).atoms) :
    ∃ s ∈ ss, a ∈ s.atoms := by
  induction ss using List.reverseRecOn with
  | nil => simp [chain, Expr.atoms] at h
  | append_singleton ss s ih =>
    rw [chain_append_singleton] at h
    rcases mem_atoms_of_accessor h with h | h
    · obtain ⟨t, ht, ha⟩ := ih h
      exact ⟨t, List.mem_append_left _ ht, ha⟩
    · exact ⟨s, List.mem_append_right _ (List.mem_singleton_self s), h⟩

end Segment

namespace Pointer

/-- The atoms that the segments of a pointer are written with. -/
def atoms (p : Pointer) : List Atom := p.segments.flatMap Segment.atoms

variable {p : Pointer} {a : Atom}

theorem mem_atoms_of_mem_segments {s : Segment} (hs : s ∈ p.segments) (h : a ∈ s.atoms) :
    a ∈ p.atoms := List.mem_flatMap.2 ⟨s, hs, h⟩

theorem mem_atoms_of_key (h : a ∈ p.key.atoms) : a ∈ p.atoms :=
  mem_atoms_of_mem_segments (List.mem_append_right _ (List.mem_singleton_self _)) h

theorem mem_atoms_of_chain_take {depth : Nat}
    (h : a ∈ (Segment.chain (p.parents.take depth)).atoms) : a ∈ p.atoms := by
  obtain ⟨s, hs, ha⟩ := Segment.exists_of_mem_atoms_chain h
  exact mem_atoms_of_mem_segments (List.mem_append_left _ (List.mem_of_mem_take hs)) ha

theorem mem_atoms_of_container (h : a ∈ p.container.atoms) : a ∈ p.atoms := by
  obtain ⟨s, hs, ha⟩ := Segment.exists_of_mem_atoms_chain h
  exact mem_atoms_of_mem_segments (List.mem_append_left _ hs) ha

theorem mem_atoms_of_accessor (h : a ∈ p.accessor.atoms) : a ∈ p.atoms :=
  (Segment.mem_atoms_of_accessor h).elim mem_atoms_of_container mem_atoms_of_key

theorem mem_atoms_of_selector (h : a ∈ p.selector.atoms) : a ∈ p.atoms :=
  (Segment.mem_atoms_of_selector h).elim mem_atoms_of_container mem_atoms_of_key

end Pointer

namespace Patch

open Segment

/-- The atoms with which a statement can be about a pointer. -/
inductive Mentions (p : Pointer) : Atom → Prop where
  | segment {a : Atom} (h : a ∈ p.atoms) : Mentions p a
  /-- The reason for which a guard aborts the script. -/
  | missing (depth : Nat) :
    Mentions p (.literal (Failure.missingOpening ++ p.ancestorText depth))
  /-- The reason for which an assertion aborts the script, before and behind the expected value. -/
  | expected : Mentions p (.literal (Failure.assertionOpening ++ p.text ++ ": expected "))
  | found : Mentions p (.literal " but found ")
  | value (index : Nat) : Mentions p (.value (Edit.localName p index))

namespace Emission

variable {p : Pointer} {a : Atom}

/-- A demand about the first segments of a pointer. -/
theorem mentions_demand {c : Expr} (hc : ∀ a ∈ c.atoms, a ∈ p.atoms) {pointer : String}
    {depth : Nat} (hpointer : pointer = p.ancestorText depth)
    (h : a ∈ (demand c pointer).statement.atoms) : Mentions p a := by
  have hatoms : (demand c pointer).statement.atoms =
      c.atoms ++ [.literal (Failure.missingOpening ++ pointer)] := rfl
  rw [hatoms, hpointer] at h
  rcases List.mem_append.1 h with h | h
  · exact .segment (hc a h)
  · rw [List.mem_singleton.1 h]
    exact .missing depth

theorem mentions_ancestors {create : Bool} {e : Emission} (he : e ∈ ancestors p create)
    (h : a ∈ e.statement.atoms) : Mentions p a := by
  obtain ⟨⟨s, depth⟩, hm, rfl⟩ := List.mem_map.1 he
  have hs : s ∈ p.segments := List.mem_append_left _ (List.fst_mem_of_mem_zipIdx hm)
  have hsegment : ∀ b ∈ s.atoms, b ∈ p.atoms := fun b => Pointer.mem_atoms_of_mem_segments hs
  have hcontainer : ∀ b ∈ (chain (p.parents.take depth)).atoms, b ∈ p.atoms :=
    fun b => Pointer.mem_atoms_of_chain_take
  dsimp only at h
  unfold ancestor at h
  split at h
  · next name =>
    refine .segment ?_
    have hatoms : (creation (chain (p.parents.take depth)) name).statement.atoms =
        (chain (p.parents.take depth)).atoms ++ [.literal name] ++
          (((key name).accessor (chain (p.parents.take depth))).atoms ++ []) := rfl
    rw [hatoms, List.append_nil, List.mem_append, List.mem_append, List.mem_singleton] at h
    rcases h with (h | rfl) | h
    · exact hcontainer a h
    · exact hsegment _ (mem_atoms_key.2 (.inl rfl))
    · exact (Segment.mem_atoms_of_accessor h).elim (hcontainer a) (hsegment a)
  · refine mentions_demand (fun b hb => ?_) rfl h
    exact (Segment.mem_atoms_of_isPresent hb).elim (hcontainer b) (hsegment b)

theorem mentions_existing (hp : p.Resolved) {e : Emission} (he : e ∈ existing p)
    (h : a ∈ e.statement.atoms) : Mentions p a := by
  rcases List.mem_append.1 he with he | he
  · exact mentions_ancestors he h
  · rw [List.mem_singleton.1 he] at h
    refine mentions_demand (fun b hb => ?_) hp.text_eq_ancestorText h
    exact (Segment.mem_atoms_of_isPresent hb).elim Pointer.mem_atoms_of_container
      Pointer.mem_atoms_of_key

theorem mentions_insertable (hp : p.Resolved) {create : Bool} {e : Emission}
    (he : e ∈ insertable p create) (h : a ∈ e.statement.atoms) : Mentions p a := by
  rcases List.mem_append.1 he with he | he
  · exact mentions_ancestors he h
  · split at he
    · rw [List.mem_singleton.1 he] at h
      refine mentions_demand (fun b hb => ?_) hp.text_eq_ancestorText h
      exact (Segment.mem_atoms_of_isInsertable hb).elim Pointer.mem_atoms_of_container
        Pointer.mem_atoms_of_key
    · simp at he

end Emission

variable {p : Pointer} {a : Atom}

theorem mem_atoms_of_placement {placement : Placement} {list index value : Expr}
    (h : a ∈ (placement.statement list index value).atoms) :
    a ∈ list.atoms ∨ a ∈ index.atoms ∨ a ∈ value.atoms := by
  cases placement with
  | insert => simpa [Placement.statement, Statement.atoms] using h
  | overwrite => simpa [Placement.statement, Statement.atoms] using h

/-- An assignment mentions its pointer, and its value besides. -/
theorem mentions_assignment {placement : Placement} {value : Expr}
    (h : a ∈ (assignment p placement value).atoms) : Mentions p a ∨ a ∈ value.atoms := by
  have hcontainer (h : a ∈ p.container.atoms) : Mentions p a ∨ a ∈ value.atoms :=
    .inl (.segment (Pointer.mem_atoms_of_container h))
  unfold assignment at h
  split at h
  · rcases List.mem_append.1 h with h | h
    · exact .inl (.segment (Pointer.mem_atoms_of_accessor h))
    · exact .inr h
  · next n hn =>
    simp only [Statement.atoms, Expr.atoms, List.mem_append, List.mem_singleton] at h
    rcases h with (h | h) | (h | rfl) | h
    · exact hcontainer h
    · rcases mem_atoms_of_placement h with h | h | h
      · exact hcontainer h
      · simp [Expr.atoms] at h
      · exact .inr h
    · exact hcontainer h
    · exact .inl (.segment (Pointer.mem_atoms_of_key (by simp [hn, Segment.atoms])))
    · exact .inr h
  · rcases mem_atoms_of_placement h with h | h | h
    · exact hcontainer h
    · exact .inl (.segment (Pointer.mem_atoms_of_selector h))
    · exact .inr h

theorem mem_atoms_of_removal (h : a ∈ (removal p).atoms) : a ∈ p.atoms := by
  unfold removal at h
  split at h
  · next n hn =>
    simp only [Removal.atoms, Expr.atoms, List.append_nil, List.mem_append, List.mem_singleton] at h
    rcases h with (h | h) | h | rfl
    · exact Pointer.mem_atoms_of_container h
    · exact Pointer.mem_atoms_of_container h
    · exact Pointer.mem_atoms_of_container h
    · exact Pointer.mem_atoms_of_key (by simp [hn, Segment.atoms])
  · rcases List.mem_append.1 h with h | h
    · exact Pointer.mem_atoms_of_container h
    · exact Pointer.mem_atoms_of_selector h

theorem mentions_assertion {index : Nat}
    (h : a ∈ (assertion p (.param (Edit.localName p index))).atoms) : Mentions p a := by
  simp only [assertion, Statement.atoms, Expr.atoms, List.mem_append, List.mem_singleton] at h
  rcases h with (h | rfl) | ((rfl | rfl) | rfl) | h
  · exact .segment (Pointer.mem_atoms_of_accessor h)
  · exact .value index
  · exact .expected
  · exact .value index
  · exact .found
  · exact .segment (Pointer.mem_atoms_of_accessor h)

/-- The value of an edit is named by a word. -/
theorem mentions_of_mem_value {index : Nat} {value : Expr}
    (hv : value.atoms = [.value (Edit.localName p index)]) (h : a ∈ value.atoms) : Mentions p a := by
  rw [hv] at h
  rw [List.mem_singleton.1 h]
  exact .value index

/-- The statements of an edit are written with atoms of its pointers. -/
theorem Edit.Resolved.exists_mentions {edit : Edit} (hr : edit.Resolved) {create : Bool}
    {index : Nat} {e : Emission} (he : e ∈ edit.emissions create index)
    (h : a ∈ e.statement.atoms) : ∃ p ∈ edit.pointers, Mentions p a := by
  cases edit with
  | add p v =>
    have hp := hr.inserted p (List.mem_singleton_self p)
    refine ⟨p, List.mem_singleton_self p, ?_⟩
    rcases List.mem_append.1 he with he | he
    · exact Emission.mentions_insertable hp he h
    · rw [List.mem_singleton.1 he] at h
      exact (mentions_assignment h).elim id (mentions_of_mem_value rfl)
  | replace p v =>
    have hp := (hr.required p (List.mem_singleton_self p)).1
    refine ⟨p, List.mem_singleton_self p, ?_⟩
    rcases List.mem_append.1 he with he | he
    · exact Emission.mentions_existing hp he h
    · rw [List.mem_singleton.1 he] at h
      exact (mentions_assignment h).elim id (mentions_of_mem_value rfl)
  | remove p =>
    have hp := (hr.required p (List.mem_singleton_self p)).1
    refine ⟨p, List.mem_singleton_self p, ?_⟩
    rcases List.mem_append.1 he with he | he
    · exact Emission.mentions_existing hp he h
    · rw [List.mem_singleton.1 he] at h
      exact .segment (mem_atoms_of_removal h)
  | test p v =>
    have hp := (hr.required p (List.mem_singleton_self p)).1
    refine ⟨p, List.mem_singleton_self p, ?_⟩
    rcases List.mem_append.1 he with he | he
    · exact Emission.mentions_existing hp he h
    · rw [List.mem_singleton.1 he] at h
      exact mentions_assertion h
  | copy source p =>
    have hs := (hr.required source (List.mem_singleton_self source)).1
    have hp := hr.inserted p (List.mem_singleton_self p)
    have hsource : source ∈ (Edit.copy source p).pointers := List.mem_cons_self ..
    have htarget : p ∈ (Edit.copy source p).pointers :=
      List.mem_cons_of_mem _ (List.mem_singleton_self p)
    rcases List.mem_append.1 he with he | he
    · rcases List.mem_append.1 he with he | he
      · exact ⟨source, hsource, Emission.mentions_existing hs he h⟩
      · exact ⟨p, htarget, Emission.mentions_insertable hp he h⟩
    · rw [List.mem_singleton.1 he] at h
      rcases mentions_assignment h with h | h
      · exact ⟨p, htarget, h⟩
      · exact ⟨source, hsource, .segment (Pointer.mem_atoms_of_accessor h)⟩
  | move source p =>
    have hs := (hr.required source (List.mem_singleton_self source)).1
    have hp := hr.inserted p (List.mem_singleton_self p)
    have hsource : source ∈ (Edit.move source p).pointers := List.mem_cons_self ..
    have htarget : p ∈ (Edit.move source p).pointers :=
      List.mem_cons_of_mem _ (List.mem_singleton_self p)
    rcases List.mem_append.1 he with he | he
    · rcases List.mem_append.1 he with he | he
      · exact ⟨source, hsource, Emission.mentions_existing hs he h⟩
      · exact ⟨p, htarget, Emission.mentions_insertable hp he h⟩
    · rcases List.mem_cons.1 he with rfl | he
      · rcases List.mem_cons.1 h with rfl | h
        · exact ⟨source, hsource, .value index⟩
        · exact ⟨source, hsource, .segment (mem_atoms_of_removal h)⟩
      · rw [List.mem_singleton.1 he] at h
        rcases mentions_assignment h with h | h
        · exact ⟨p, htarget, h⟩
        · exact ⟨source, hsource, mentions_of_mem_value rfl h⟩

theorem isWord_variableName (p : Pointer) : IsWord p.variableName := by
  have hs (cs : List Char) : ∀ c ∈ Pointer.sanitize cs, Lexeme.isNameRest c = true := by
    intro c hc
    obtain ⟨d, -, rfl⟩ := List.mem_map.1 hc
    split
    · next hd => simp [Lexeme.isNameRest, hd]
    · decide
  simp only [Pointer.variableName]
  split
  · intro c hc
    rw [String.toList_ofList] at hc
    rcases List.mem_cons.1 hc with rfl | hc
    · decide
    · exact hs _ c hc
  · intro c hc
    rw [String.toList_ofList] at hc
    exact hs _ c hc

theorem isWord_localName (p : Pointer) (index : Nat) : IsWord (Edit.localName p index) :=
  isWord_append (isWord_append (isWord_variableName p) (by decide)) (isWord_repr index)

/-- What mentions a resolved pointer is well written. -/
theorem Mentions.wellWritten (h : Mentions p a) (hp : p.Resolved) : a.WellWritten := by
  cases h with
  | segment h =>
    obtain ⟨s, hs, ha⟩ := List.mem_flatMap.1 h
    exact Segment.wellWritten_of_mem_atoms (hp.singleLine_of_mem hs) ha
  | missing depth =>
    exact (Text.singleLine_append _ _).2 ⟨by decide, hp.singleLine_ancestorText depth⟩
  | expected =>
    exact (Text.singleLine_append _ _).2
      ⟨(Text.singleLine_append _ _).2 ⟨by decide, hp.singleLine⟩, by decide⟩
  | found =>
    have hfound : Text.SingleLine " but found " := by decide
    exact hfound
  | value index => exact isWord_localName p index

/-- Every statement of an edit is well written. -/
theorem Edit.Resolved.wellWritten_emissions {edit : Edit} (hr : edit.Resolved) {create : Bool}
    {index : Nat} {e : Emission} (h : e ∈ edit.emissions create index) :
    e.statement.WellWritten := by
  rw [Statement.wellWritten_iff]
  intro a ha
  obtain ⟨p, hp, hm⟩ := hr.exists_mentions h ha
  exact hm.wellWritten (hr.pointers p hp)

/-- The statements of numbered edits are well written. -/
theorem wellWritten_emissions {create : Bool} {edits : List Edit}
    (hr : ∀ edit ∈ edits, edit.Resolved) {e : Emission} (h : e ∈ emissions create edits) :
    e.statement.WellWritten := by
  obtain ⟨⟨edit, index⟩, hm, he⟩ := List.mem_flatMap.1 h
  exact (hr edit (List.fst_mem_of_mem_zipIdx hm)).wellWritten_emissions he

/-- The line of an emitted statement is its own text. -/
theorem line_of_mem_emissions {create : Bool} {edits : List Edit}
    (hr : ∀ edit ∈ edits, edit.Resolved) {e : Emission} (h : e ∈ emissions create edits) :
    e.line = e.statement.text :=
  (wellWritten_emissions hr h).normalize_text

end Patch

end Catalog
