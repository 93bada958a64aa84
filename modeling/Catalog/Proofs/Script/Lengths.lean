import Catalog.Proofs.Pointer.Keys
import Catalog.Proofs.Script.Token
import Catalog.Script.Accessor
import Mathlib.Algebra.BigOperators.Group.List.Basic
import Mathlib.Tactic.Positivity
import Mathlib.Tactic.Ring

/-!
# The length of accessors

A named member adds its name to the text of its container. Every other segment is decided when the
script runs, so its accessor repeats the whole text of its container: a position three times, and a
place told from the end of a list twice. The length of an accessor is therefore, up to constants, at
least the product of these numbers, and at most that product times the length of the pointer. It is
linear in the pointer as long as all members are named, but no polynomial bounds it.
-/

namespace Catalog

open Script

namespace Segment

/-- A list position, or the member of that name. -/
def isPosition : Segment → Bool
  | .position _ => true
  | _ => false

/-- A place told from the end of a list. -/
def isFromEnd : Segment → Bool
  | .fromEnd _ => true
  | .append => true
  | _ => false

/-- How often an accessor repeats the text of its container. -/
def copies (s : Segment) : Nat := if s.isPosition then 3 else if s.isFromEnd then 2 else 1

/-- The number of characters that an accessor adds to the copies of its container. -/
def added : Segment → Nat
  | .key name => if isIdentifier name then name.length + 1 else (Text.quote name).length + 2
  | .position n => (Nat.repr n).length + (Text.quote (Nat.repr n)).length + 28
  | .fromEnd n => (Nat.repr n).length + 12
  | .append => 9

theorem length_text_accessor (c : Expr) (s : Segment) :
    (s.accessor c).text.length = s.copies * c.text.length + s.added := by
  rw [← String.length_toList]
  cases s with
  | key name =>
    simp only [accessor, added]
    split
    · simp [copies, isPosition, isFromEnd, Expr.text, String.length_toList]
    · simp [copies, isPosition, isFromEnd, Expr.text, String.length_toList]
  | position n =>
    simp [accessor, copies, isPosition, added, Expr.text, String.length_toList, -Nat.toList_repr]
    omega
  | fromEnd n =>
    simp [accessor, selector, copies, isPosition, isFromEnd, added, Expr.text,
      String.length_toList, -Nat.toList_repr]
    omega
  | append =>
    simp [accessor, selector, copies, isPosition, isFromEnd, added, Expr.text,
      String.length_toList]
    omega

theorem length_encode_le (cs : List Char) : (Text.Quoted.encode cs).length ≤ 2 * cs.length := by
  fun_induction Text.Quoted.encode cs with
  | case1 => simp
  | _ => simp only [List.length_cons]; omega

theorem length_quote_le (s : String) : (Text.quote s).length ≤ 2 * s.length + 2 := by
  have h := length_encode_le s.toList
  rw [String.length_toList] at h
  simp only [Text.quote, String.length_ofList, List.length_append, List.length_cons,
    List.length_nil]
  omega

/-- What an accessor adds is linear in the text of its segment. -/
theorem added_le (s : Segment) : s.added ≤ 20 * (s.text.length + 1) := by
  cases s with
  | key name =>
    have h := length_quote_le name
    simp only [added, text]
    split
    · omega
    · omega
  | position n =>
    have h := length_quote_le (Nat.repr n)
    have hpos : 0 < (Nat.repr n).length := by
      rw [← String.length_toList, Nat.toList_repr]
      exact Nat.length_toDigits_pos
    simp only [added, text]
    omega
  | fromEnd n =>
    simp only [added, text, String.length_append]
    omega
  | append => decide

/-- How often a chain repeats the text of the document's own accessor. -/
def growth (ss : List Segment) : Nat := 3 ^ ss.countP isPosition * 2 ^ ss.countP isFromEnd

theorem growth_pos (ss : List Segment) : 0 < growth ss := by
  unfold growth
  positivity

theorem growth_append_singleton (ss : List Segment) (s : Segment) :
    growth (ss ++ [s]) = s.copies * growth ss := by
  cases s with
  | _ => simp [growth, copies, isPosition, isFromEnd, pow_succ] <;> ring

/-- Every copy of the document's own accessor is written out. -/
theorem growth_le_length_chain (ss : List Segment) :
    11 * growth ss ≤ (chain ss).text.length := by
  induction ss using List.reverseRecOn with
  | nil => decide
  | append_singleton ss s ih =>
    rw [chain_append_singleton, length_text_accessor, growth_append_singleton]
    calc
      11 * (s.copies * growth ss) = s.copies * (11 * growth ss) := by ring
      _ ≤ s.copies * (chain ss).text.length := Nat.mul_le_mul_left _ ih
      _ ≤ s.copies * (chain ss).text.length + s.added := Nat.le_add_right _ _

/-- Every copy holds at most what all segments add. -/
theorem length_chain_le (ss : List Segment) :
    (chain ss).text.length ≤ growth ss * (11 + (ss.map added).sum) := by
  induction ss using List.reverseRecOn with
  | nil => decide
  | append_singleton ss s ih =>
    have hadded : s.added ≤ s.copies * growth ss * s.added :=
      Nat.le_mul_of_pos_left _ (growth_append_singleton ss s ▸ growth_pos _)
    rw [chain_append_singleton, length_text_accessor, growth_append_singleton, List.map_append,
      List.sum_append, List.map_singleton, List.sum_singleton]
    calc
      s.copies * (chain ss).text.length + s.added
        ≤ s.copies * (growth ss * (11 + (ss.map added).sum)) + s.copies * growth ss * s.added :=
          Nat.add_le_add (Nat.mul_le_mul_left _ ih) hadded
      _ = s.copies * growth ss * (11 + ((ss.map added).sum + s.added)) := by ring

theorem length_le_length_escapeChars (cs : List Char) :
    cs.length ≤ (Pointer.escapeChars cs).length := by
  fun_induction Pointer.escapeChars cs with
  | case1 => simp
  | _ => simp only [List.length_cons]; omega

/-- What all segments add is linear in the text of their pointer. -/
theorem sum_added_le (ss : List Segment) :
    (ss.map added).sum ≤ 20 * (pointerText ss).length := by
  rw [pointerText, String.length_ofList]
  induction ss with
  | nil => simp
  | cons s ss ih =>
    have hs := s.added_le
    have htext := length_le_length_escapeChars s.text.toList
    rw [String.length_toList] at htext
    rw [List.map_cons, List.sum_cons, pointerChars, List.flatMap_cons, List.length_append,
      List.length_cons, ← pointerChars]
    omega

end Segment

namespace Pointer

open Segment

/-- A pointer that leads through lists only, always to their first elements. -/
def firsts (depth : Nat) : Pointer :=
  ⟨pointerText (List.replicate (depth + 1) (.position 0)), List.replicate depth (.position 0),
    .position 0⟩

theorem segments_firsts (depth : Nat) :
    (firsts depth).segments = List.replicate (depth + 1) (.position 0) := by
  rw [segments, firsts, List.replicate_succ']

theorem resolved_firsts (depth : Nat) : (firsts depth).Resolved := by
  refine ⟨by rw [segments_firsts, firsts], ?_, ?_, ?_⟩
  · rw [segments_firsts]
    intro s hs
    rw [List.eq_of_mem_replicate hs]
    rfl
  · simp [firsts]
  · refine singleLine_pointerText fun s hs => ?_
    rw [List.eq_of_mem_replicate hs]
    decide

theorem length_text_firsts (depth : Nat) : (firsts depth).text.length = 2 * (depth + 1) := by
  rw [firsts, pointerText, String.length_ofList, pointerChars, List.length_flatMap,
    List.map_replicate, List.sum_replicate_nat, Nat.mul_comm]
  rfl

theorem growth_firsts (depth : Nat) : growth (firsts depth).segments = 3 ^ (depth + 1) := by
  simp [segments_firsts, growth, List.countP_replicate, isPosition, isFromEnd]

/-- The length of an accessor is exponential in the number of segments that are not named, and
linear in the length of the pointer besides. -/
theorem length_accessor_bounds {text : String} {p : Pointer} (h : resolve text = .ok p) :
    11 * (3 ^ p.segments.countP isPosition * 2 ^ p.segments.countP isFromEnd) ≤
        p.accessor.text.length ∧
      p.accessor.text.length ≤
        20 * (3 ^ p.segments.countP isPosition * 2 ^ p.segments.countP isFromEnd) *
          (text.length + 1) := by
  obtain ⟨rfl, hp⟩ := resolve_eq_ok h
  rw [accessor_eq_chain, ← growth]
  refine ⟨growth_le_length_chain p.segments, ?_⟩
  have hadded : 11 + (p.segments.map added).sum ≤ 20 * (p.text.length + 1) := by
    have h := sum_added_le p.segments
    rw [← hp.text_eq] at h
    omega
  calc
    (chain p.segments).text.length
      ≤ growth p.segments * (11 + (p.segments.map added).sum) := length_chain_le p.segments
    _ ≤ growth p.segments * (20 * (p.text.length + 1)) := Nat.mul_le_mul_left _ hadded
    _ = 20 * growth p.segments * (p.text.length + 1) := by ring

/-- Three positions make an accessor of at least `11 * 3 ^ 3` characters. -/
theorem length_accessor_bounds_firsts :
    resolve "/0/0/0" = .ok (firsts 2) ∧ 297 ≤ (firsts 2).accessor.text.length ∧
      (firsts 2).accessor.text.length ≤ 3780 := by
  have htext : (firsts 2).text = "/0/0/0" := by decide
  have h : resolve "/0/0/0" = .ok (firsts 2) := htext ▸ (resolved_firsts 2).resolve_text
  obtain ⟨hlower, hupper⟩ := length_accessor_bounds h
  exact ⟨h, hlower, hupper⟩

/-- A square of the length of the pointer bounds the length of the accessor. -/
def RequestSized : Prop :=
  ∃ bound, ∀ text p, resolve text = .ok p →
    p.accessor.text.length ≤ bound * (text.length + 1) ^ 2

/-- The powers of three outgrow every multiple of the squares. -/
theorem exists_mul_sq_lt_pow (bound : Nat) :
    ∃ depth, bound * (2 * (depth + 1) + 1) ^ 2 < 11 * 3 ^ (depth + 1) := by
  have hlinear (k : Nat) : 8 * k + 1 ≤ 9 ^ k := by
    induction k with
    | zero => simp
    | succ k ih =>
      rw [pow_succ]
      omega
  -- At this depth the power is the cube of a power that each of the three factors stays below.
  refine ⟨6 * bound + 5, ?_⟩
  have hk := hlinear (bound + 1)
  have hpos : 0 < (9 ^ (bound + 1)) ^ 3 := by positivity
  calc
    bound * (2 * (6 * bound + 5 + 1) + 1) ^ 2
      ≤ 9 ^ (bound + 1) * (2 * 9 ^ (bound + 1)) ^ 2 :=
        Nat.mul_le_mul (by omega) (Nat.pow_le_pow_left (by omega) 2)
    _ = 4 * (9 ^ (bound + 1)) ^ 3 := by ring
    _ < 11 * (9 ^ (bound + 1)) ^ 3 := by omega
    _ = 11 * 3 ^ (6 * bound + 5 + 1) := by
      rw [← pow_mul, show (9 : Nat) = 3 ^ 2 by rfl, ← pow_mul]
      ring_nf

/-- No square of the length of a pointer bounds the length of its accessor. -/
theorem not_requestSized : ¬RequestSized := by
  rintro ⟨bound, h⟩
  obtain ⟨depth, hdepth⟩ := exists_mul_sq_lt_pow bound
  have hupper := h _ _ (resolved_firsts depth).resolve_text
  have hlower := growth_le_length_chain (firsts depth).segments
  rw [length_text_firsts] at hupper
  rw [← accessor_eq_chain, growth_firsts] at hlower
  omega

end Pointer

end Catalog
