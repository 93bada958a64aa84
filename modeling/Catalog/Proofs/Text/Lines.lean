import Catalog.Text.Lines

/-!
# Texts on a single line

A text without line breaks stays on one line wherever it is written. Such texts joined by line feeds
are read back as they were, unless one of them is empty.
-/

namespace Catalog.Text

/-- The text holds no line feed and no carriage return. -/
def SingleLine (s : String) : Prop := ∀ c ∈ s.toList, c ≠ '\n' ∧ c ≠ '\r'

instance (s : String) : Decidable (SingleLine s) :=
  decidable_of_iff (s.toList.all (fun c => c != '\n' && c != '\r') = true)
    (by simp [SingleLine])

theorem singleLine_append (s t : String) :
    SingleLine (s ++ t) ↔ SingleLine s ∧ SingleLine t := by
  rw [SingleLine, String.toList_append]
  exact List.forall_mem_append

/-- Without carriage returns the pieces between line feeds are the lines, as long as none of them is
empty. -/
theorem linesOf_eq_self {pieces : List (List Char)} (hne : ∀ p ∈ pieces, p ≠ [])
    (hr : ∀ p ∈ pieces, '\r' ∉ p) : linesOf pieces = pieces := by
  fun_induction linesOf pieces with
  | case1 => rfl
  | case2 last hl => exact absurd (List.isEmpty_iff.1 hl) (hne last (List.mem_cons_self ..))
  | case3 last hl => rfl
  | case4 piece rest hrest ih =>
    have hp : dropReturn piece = piece := by
      rw [dropReturn, if_neg]
      intro hlast
      exact hr piece (List.mem_cons_self ..) (List.mem_of_getLast? hlast)
    rw [hp, ih (fun p hm => hne p (List.mem_cons_of_mem _ hm))
      fun p hm => hr p (List.mem_cons_of_mem _ hm)]

/-- Lines that are joined by line feeds are read back as they were. -/
theorem lines_intercalate {ls : List String} (hne : ∀ l ∈ ls, l ≠ "")
    (hl : ∀ l ∈ ls, SingleLine l) : lines ("\n".intercalate ls) = ls := by
  by_cases hnil : ls = []
  · subst hnil
    rfl
  have hpieces : ∀ p ∈ ls.map String.toList, '\n' ∉ p ∧ '\r' ∉ p ∧ p ≠ [] := by
    intro p hp
    obtain ⟨l, hm, rfl⟩ := List.mem_map.1 hp
    refine ⟨fun h => (hl l hm _ h).1 rfl, fun h => (hl l hm _ h).2 rfl, ?_⟩
    simpa using hne l hm
  have hbreak : "\n".toList = ['\n'] := rfl
  rw [lines, String.toList_intercalate, hbreak,
    List.splitOn_intercalate '\n' (fun p hp => (hpieces p hp).1) (by simpa using hnil),
    linesOf_eq_self (fun p hp => (hpieces p hp).2.2) fun p hp => (hpieces p hp).2.1, List.map_map]
  have hid : String.ofList ∘ String.toList = id := funext fun s => String.ofList_toList
  rw [hid, List.map_id]

end Catalog.Text
