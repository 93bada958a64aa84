import Catalog.Text.Blank
import Mathlib.Data.List.DropRight

/-!
# Trimming texts

Trimming takes the blanks at the ends of a text away and nothing else, so it leaves a text as it is
exactly when there are none. What stands between two characters that are no blanks is out of its
reach.
-/

namespace Catalog.Text

/-- The last character of a text is a blank. -/
def EndsBlank (cs : List Char) : Prop := ∃ c, cs.getLast? = some c ∧ isBlank c = true

instance (cs : List Char) : Decidable (EndsBlank cs) :=
  decidable_of_iff (cs.getLast?.any isBlank = true) (by simp [EndsBlank, Option.any_eq_true])

/-- The first character of a text is a blank. -/
def StartsBlank (cs : List Char) : Prop := ∃ c, cs.head? = some c ∧ isBlank c = true

instance (cs : List Char) : Decidable (StartsBlank cs) :=
  decidable_of_iff (cs.head?.any isBlank = true) (by simp [StartsBlank, Option.any_eq_true])

/-- The text holds blanks alone. -/
def Blank (cs : List Char) : Prop := ∀ c ∈ cs, isBlank c = true

instance (cs : List Char) : Decidable (Blank cs) :=
  decidable_of_iff (cs.all isBlank = true) (by simp [Blank])

/-- The text is another one with blanks around it. -/
def Padded (body cs : List Char) : Prop :=
  ∃ before after, Blank before ∧ Blank after ∧ cs = before ++ body ++ after

theorem padded_self (cs : List Char) : Padded cs cs :=
  ⟨[], [], List.forall_mem_nil _, List.forall_mem_nil _, by simp⟩

theorem trimEnd_eq_self_iff (cs : List Char) : trimEnd cs = cs ↔ ¬EndsBlank cs := by
  rw [show trimEnd cs = cs.rdropWhile isBlank from rfl, List.rdropWhile_eq_self_iff, EndsBlank]
  constructor
  · rintro h ⟨c, hc, hblank⟩
    obtain ⟨hne, rfl⟩ := List.mem_getLast?_eq_getLast hc
    exact h hne hblank
  · intro h hne hblank
    exact h ⟨_, List.getLast?_eq_getLast_of_ne_nil hne, hblank⟩

/-- What stands before a character that is no blank stays. -/
theorem trimEnd_append {ys : List Char} (h : ∃ c ∈ ys, isBlank c = false) (xs : List Char) :
    trimEnd (xs ++ ys) = xs ++ trimEnd ys := by
  have hne : (ys.reverse.dropWhile isBlank).isEmpty = false := by
    obtain ⟨c, hc, hblank⟩ := h
    rw [List.isEmpty_eq_false_iff, ne_eq, List.dropWhile_eq_nil_iff]
    intro hall
    rw [hall c (List.mem_reverse.2 hc)] at hblank
    cases hblank
  rw [trimEnd, List.reverse_append, List.dropWhile_append, hne]
  simp [trimEnd]

/-- A text that starts with no blank is trimmed at its end alone. -/
theorem trimChars_cons {c : Char} (h : isBlank c = false) (cs : List Char) :
    trimChars (c :: cs) = trimEnd (c :: cs) := by
  rw [trimChars, List.dropWhile_cons_of_neg (by simp [h])]

/-- Trimming gives what stands between blanks and neither starts nor ends with one. -/
theorem trimChars_eq_iff {cs body : List Char} :
    trimChars cs = body ↔ Padded body cs ∧ ¬StartsBlank body ∧ ¬EndsBlank body := by
  constructor
  · rintro rfl
    have hdrop : trimChars cs = (cs.dropWhile isBlank).rdropWhile isBlank := rfl
    refine ⟨⟨cs.takeWhile isBlank, (cs.dropWhile isBlank).rtakeWhile isBlank,
      fun c => List.mem_takeWhile_imp, fun c => List.mem_rtakeWhile_imp, ?_⟩, ?_, ?_⟩
    · rw [hdrop, List.append_assoc, List.rdropWhile_append_rtakeWhile,
        List.takeWhile_append_dropWhile]
    · rintro ⟨c, hc, hblank⟩
      have hhead : (cs.dropWhile isBlank).head? = some c := by
        obtain ⟨rest, hrest⟩ := List.rdropWhile_prefix isBlank (cs.dropWhile isBlank)
        rw [← hrest, List.head?_append, ← hdrop, hc, Option.some_or]
      have hnot := List.head?_dropWhile_not isBlank cs
      rw [hhead] at hnot
      exact Bool.false_ne_true (hnot.symm.trans hblank)
    · rw [← trimEnd_eq_self_iff]
      exact List.rdropWhile_idempotent isBlank _
  · rintro ⟨⟨before, after, hbefore, hafter, rfl⟩, hstart, hend⟩
    have hreverse : ∀ c ∈ after.reverse, isBlank c = true := fun c hc =>
      hafter c (List.mem_reverse.1 hc)
    rw [trimChars, List.append_assoc, List.dropWhile_append_of_pos hbefore]
    cases body with
    | nil =>
      rw [List.nil_append, List.dropWhile_eq_nil_iff.2 hafter]
      rfl
    | cons c body =>
      have hc : isBlank c = false := by
        rw [← Bool.not_eq_true]
        exact fun hblank => hstart ⟨c, rfl, hblank⟩
      rw [List.cons_append, List.dropWhile_cons_of_neg (by simp [hc]), ← List.cons_append, trimEnd,
        List.reverse_append, List.dropWhile_append_of_pos hreverse]
      exact (trimEnd_eq_self_iff _).2 hend

/-- Nothing is left of a text that holds blanks alone. -/
theorem trimChars_eq_nil_iff {cs : List Char} : trimChars cs = [] ↔ Blank cs := by
  rw [trimChars_eq_iff]
  constructor
  · rintro ⟨⟨before, after, hbefore, hafter, rfl⟩, -⟩
    rw [List.append_nil]
    exact List.forall_mem_append.2 ⟨hbefore, hafter⟩
  · intro h
    exact ⟨⟨cs, [], h, by simp [Blank], by simp⟩, by simp [StartsBlank], by simp [EndsBlank]⟩

/-- A text that trimming leaves as it is does not end in a blank. -/
theorem not_endsBlank_of_trim {s : String} (h : trim s = s) : ¬EndsBlank s.toList := by
  have hchars : trimChars s.toList = s.toList := by
    rw [← String.toList_ofList (l := trimChars s.toList)]
    exact congrArg String.toList h
  exact (trimChars_eq_iff.1 hchars).2.2

end Catalog.Text
