import Catalog.Proofs.Filter.Reading
import Catalog.Proofs.Json.Reordered

/-!
# Which operands are literals

Every operand either is the written form of a sound literal, or is refused for a reason that its
shape alone tells. An object is a literal only with a single member, so the order of members has no
part in whether an operand is read. It can only show in the text of an error.
-/

namespace Catalog

open Json (Reordered)
open Outcome (Alike)

namespace Literal

/-- Why an operand is no literal. -/
inductive Refused (operator : String) : Json → CompileError → Prop where
  | invalid {kind : TemporalKind} {s : String} (h : isValid kind s = false) :
    Refused operator (.object [(kind.name, .text s)]) (.literal kind s)
  | untold {kind : TemporalKind} {v : Json} (h : ∀ s, v ≠ .text s) :
    Refused operator (.object [(kind.name, v)]) (.literal kind v.compact)
  /-- It is no text, number or truth value, and has no tag either. -/
  | shapeless {v : Json} (hplain : ∀ l : Literal, v ≠ l.toJson)
    (htag : ∀ (kind : TemporalKind) (w : Json), v ≠ .object [(kind.name, w)]) :
    Refused operator v (.argumentType operator v)

theorem read_tagged (operator : String) (kind : TemporalKind) (v : Json) :
    read operator (.object [(kind.name, v)]) = readTemporal kind v := by
  cases kind with
  | timestamp => rfl
  | date => rfl

/-- What is refused is not read. -/
theorem read_of_refused {operator : String} {v : Json} {e : CompileError}
    (h : Refused operator v e) : read operator v = .error e := by
  cases h with
  | invalid hinvalid => simp [read_tagged, readTemporal, hinvalid]
  | @untold kind w htext =>
    rw [read_tagged]
    cases w with
    | text s => exact absurd rfl (htext s)
    | _ => rfl
  | shapeless hplain htag =>
    unfold read
    split
    · next s => exact absurd rfl (hplain (.text s))
    · next n => exact absurd rfl (hplain (.number n))
    · next b => exact absurd rfl (hplain (.boolean b))
    · next tag w =>
      have hkind (kind : TemporalKind) : tag ≠ kind.name := by
        rintro rfl
        exact htag kind w rfl
      rw [if_neg (hkind .timestamp), if_neg (hkind .date)]
    · rfl

theorem sound_or_refused_tagged (operator : String) (kind : TemporalKind) (v : Json) :
    (∃ l : Literal, l.IsSound ∧ .object [(kind.name, v)] = l.toJson) ∨
      ∃ e, Refused operator (.object [(kind.name, v)]) e := by
  by_cases htext : ∃ s, v = .text s
  · obtain ⟨s, rfl⟩ := htext
    cases hvalid : isValid kind s with
    | false => exact .inr ⟨_, .invalid hvalid⟩
    | true =>
      cases kind with
      | timestamp => exact .inl ⟨.timestamp s, hvalid, rfl⟩
      | date => exact .inl ⟨.date s, hvalid, rfl⟩
  · exact .inr ⟨_, .untold (not_exists.1 htext)⟩

/-- Every operand is a sound literal or is refused. -/
theorem sound_or_refused (operator : String) (v : Json) :
    (∃ l : Literal, l.IsSound ∧ v = l.toJson) ∨ ∃ e, Refused operator v e := by
  by_cases htag : ∃ (kind : TemporalKind) (w : Json), v = .object [(kind.name, w)]
  · obtain ⟨kind, w, rfl⟩ := htag
    exact sound_or_refused_tagged operator kind w
  have hother (kind : TemporalKind) (w : Json) : v ≠ .object [(kind.name, w)] :=
    fun he => htag ⟨kind, w, he⟩
  by_cases hplain : ∃ l : Literal, v = l.toJson
  · obtain ⟨l, rfl⟩ := hplain
    refine .inl ⟨l, ?_, rfl⟩
    cases l with
    | timestamp s => exact absurd rfl (hother .timestamp (.text s))
    | date s => exact absurd rfl (hother .date (.text s))
    | _ => trivial
  · exact .inr ⟨_, .shapeless (not_exists.1 hplain) hother⟩

/-- Exactly the operands are read that sound literals are written as. -/
theorem read_eq_ok_iff {operator : String} {v : Json} {l : Literal} :
    read operator v = .ok l ↔ v = l.toJson ∧ l.IsSound := by
  constructor
  · intro h
    rcases sound_or_refused operator v with ⟨l, hl, rfl⟩ | ⟨e, he⟩
    · rw [read_toJson hl] at h
      cases h
      exact ⟨rfl, hl⟩
    · rw [read_of_refused he] at h
      cases h
  · rintro ⟨rfl, hl⟩
    exact read_toJson hl operator

theorem read_eq_error_iff {operator : String} {v : Json} {e : CompileError} :
    read operator v = .error e ↔ Refused operator v e := by
  constructor
  · intro h
    rcases sound_or_refused operator v with ⟨l, hl, rfl⟩ | ⟨e, he⟩
    · rw [read_toJson hl] at h
      cases h
    · rw [read_of_refused he] at h
      cases h
      exact he
  · exact read_of_refused

theorem mapM_read_eq_ok_iff {operator : String} {items : List Json} {ls : List Literal} :
    items.mapM (read operator) = .ok ls ↔ items = ls.map toJson ∧ ∀ l ∈ ls, l.IsSound := by
  rw [Outcome.mapM_eq_ok_iff]
  constructor
  · intro h
    induction h with
    | nil => exact ⟨rfl, by simp⟩
    | cons hl _ ih =>
      obtain ⟨rfl, hsound⟩ := read_eq_ok_iff.1 hl
      obtain ⟨rfl, hall⟩ := ih
      exact ⟨rfl, List.forall_mem_cons.2 ⟨hsound, hall⟩⟩
  · rintro ⟨rfl, hall⟩
    rw [List.forall₂_map_left_iff, List.forall₂_same]
    exact fun l hl => read_toJson (hall l hl) operator

/-- Several operands are refused with the first one that is. -/
theorem mapM_read_eq_error_iff {operator : String} {vs : List Json} {e : CompileError} :
    vs.mapM (read operator) = .error e ↔ ∃ (before : List Literal) (v : Json) (after : List Json),
      vs = before.map toJson ++ v :: after ∧ (∀ l ∈ before, l.IsSound) ∧ Refused operator v e := by
  rw [Outcome.mapM_eq_error_iff]
  constructor
  · rintro ⟨before, v, after, rfl, hbefore, hv⟩
    obtain ⟨ls, hls⟩ := Outcome.exists_mapM_eq_ok_iff.2 hbefore
    obtain ⟨rfl, hsound⟩ := mapM_read_eq_ok_iff.1 hls
    exact ⟨ls, v, after, rfl, hsound, read_eq_error_iff.1 hv⟩
  · rintro ⟨ls, v, after, rfl, hsound, hv⟩
    exact ⟨_, v, after, rfl,
      Outcome.exists_mapM_eq_ok_iff.1 ⟨ls, mapM_read_eq_ok_iff.2 ⟨rfl, hsound⟩⟩,
      read_eq_error_iff.2 hv⟩

theorem all_sound_or_refused (operator : String) (vs : List Json) :
    (∃ ls : List Literal, (∀ l ∈ ls, l.IsSound) ∧ vs = ls.map toJson) ∨
      ∃ (before : List Literal) (v : Json) (after : List Json) (e : CompileError),
        vs = before.map toJson ++ v :: after ∧ (∀ l ∈ before, l.IsSound) ∧
          Refused operator v e := by
  cases h : vs.mapM (read operator) with
  | ok ls =>
    obtain ⟨hvs, hls⟩ := mapM_read_eq_ok_iff.1 h
    exact .inl ⟨ls, hls, hvs⟩
  | error e =>
    obtain ⟨before, v, after, hvs, hbefore, hv⟩ := mapM_read_eq_error_iff.1 h
    exact .inr ⟨before, v, after, e, hvs, hbefore, hv⟩

section

variable {v w : Json}

theorem alike_readTemporal (h : Reordered v w) (kind : TemporalKind) :
    Alike CompileError.kind (readTemporal kind v) (readTemporal kind w) := by
  cases h with
  | here | member | item => exact .error rfl

theorem read_object_of_length {operator : String} {members : List (String × Json)}
    (h : members.length ≠ 1) :
    read operator (.object members) = .error (.argumentType operator (.object members)) := by
  match members, h with
  | [], _ => rfl
  | [m], h => exact absurd rfl h
  | m :: n :: rest, _ => rfl

/-- The tag of a literal stands alone, so there is no order of members to it. -/
theorem alike_read (h : Reordered v w) (operator : String) :
    Alike CompileError.kind (read operator v) (read operator w) := by
  cases h with
  | @here members others hperm =>
    by_cases hone : members.length = 1
    · obtain ⟨m, rfl⟩ := List.length_eq_one_iff.1 hone
      rw [List.singleton_perm.1 hperm]
      exact .refl _
    · rw [read_object_of_length hone, read_object_of_length (hperm.length_eq ▸ hone)]
      exact .error rfl
  | @member before after name v w h =>
    by_cases hone : before = [] ∧ after = []
    · obtain ⟨rfl, rfl⟩ := hone
      simp only [List.nil_append, Literal.read]
      split
      · exact alike_readTemporal h .timestamp
      · split
        · exact alike_readTemporal h .date
        · exact .error rfl
    · have hlength (x : Json) : (before ++ (name, x) :: after).length ≠ 1 := by
        simp only [List.length_append, List.length_cons, ← List.length_eq_zero_iff] at hone ⊢
        omega
      rw [read_object_of_length (hlength v), read_object_of_length (hlength w)]
      exact .error rfl
  | item => exact .error rfl

/-- An item of a list in which members stand in another order changes nothing but an error. -/
theorem alike_mapM_read (h : Reordered v w) (before after : List Json) (operator : String) :
    Alike CompileError.kind ((before ++ v :: after).mapM (read operator))
      ((before ++ w :: after).mapM (read operator)) := by
  refine Outcome.alike_mapM (List.rel_append ?_ (.cons (alike_read h operator) ?_))
  · exact List.forall₂_same.2 fun _ _ => .refl _
  · exact List.forall₂_same.2 fun _ _ => .refl _

end

end Literal

end Catalog
