import Catalog.Text.Order

/-!
# Distinct names in order

Sorting puts equal names side by side, so it is enough to drop every name that stands beside an
equal one. What remains increases strictly and still holds every name. Entries whose names differ
stand in the same order whatever order they were in before, and what they hold has no part in it.
-/

namespace Catalog.Text

variable {name : String} {names : List String}

theorem decide_le_trans (a b c : String) (hab : decide (a ≤ b) = true)
    (hbc : decide (b ≤ c) = true) : decide (a ≤ c) = true :=
  decide_eq_true (String.le_trans (of_decide_eq_true hab) (of_decide_eq_true hbc))

theorem decide_le_total (a b : String) : (decide (a ≤ b) || decide (b ≤ a)) = true := by
  simpa using String.le_total a b

theorem pairwise_sortNames (names : List String) : (sortNames names).Pairwise (· ≤ ·) := by
  simpa [sortNames] using List.pairwise_mergeSort decide_le_trans decide_le_total names

theorem mem_dropRepeats : name ∈ dropRepeats names ↔ name ∈ names := by
  fun_induction dropRepeats names with
  | case1 b rest ih => simp [ih]
  | case2 a b rest _ ih => rw [List.mem_cons, ih, ← List.mem_cons]
  | case3 => rfl

/-- Names in order that keep no repetition increase strictly. -/
theorem pairwise_dropRepeats (h : names.Pairwise (· ≤ ·)) :
    (dropRepeats names).Pairwise (· < ·) := by
  fun_induction dropRepeats names with
  | case1 b rest ih => exact ih h.of_cons
  | case2 a b rest hne ih =>
    obtain ⟨ha, hrest⟩ := List.pairwise_cons.1 h
    obtain ⟨hb, -⟩ := List.pairwise_cons.1 hrest
    have hab : a < b := String.not_le.1 fun hba =>
      hne (String.le_antisymm (ha b List.mem_cons_self) hba)
    refine List.pairwise_cons.2 ⟨fun c hc => ?_, ih hrest⟩
    rcases List.mem_cons.1 (mem_dropRepeats.1 hc) with rfl | hc
    · exact hab
    · exact String.not_le.1 fun hca => String.not_le.2 hab (String.le_trans (hb c hc) hca)
  | case3 names hshort =>
    match names, hshort with
    | [], _ => exact .nil
    | [a], _ => exact List.pairwise_singleton _ a
    | a :: b :: rest, hshort => exact absurd rfl (hshort a b rest)

theorem pairwise_sortDistinct (names : List String) : (sortDistinct names).Pairwise (· < ·) :=
  pairwise_dropRepeats (pairwise_sortNames names)

theorem mem_sortDistinct : name ∈ sortDistinct names ↔ name ∈ names := by
  rw [sortDistinct, mem_dropRepeats, sortNames, List.mem_mergeSort]

theorem mem_appendNew {seen : List String} :
    name ∈ appendNew seen names ↔ name ∈ seen ∨ name ∈ names := by
  induction names generalizing seen with
  | nil => simp [appendNew]
  | cons first rest ih =>
    rw [appendNew, ih, List.mem_cons]
    split
    · next hfirst =>
      constructor
      · rintro (h | h)
        · exact .inl h
        · exact .inr (.inr h)
      · rintro (h | rfl | h)
        · exact .inl h
        · exact .inl hfirst
        · exact .inr h
    · rw [List.mem_append, List.mem_singleton, or_assoc]

/-- Appending names keeps the first occurrence of each one that is not yet present. -/
theorem appendNew_eq_append (seen names : List String) :
    appendNew seen names = seen ++ (names.filter (· ∉ seen)).eraseDups := by
  induction names generalizing seen with
  | nil => simp [appendNew]
  | cons name rest ih =>
    rw [appendNew, ih]
    split
    · next hname => rw [List.filter_cons_of_neg (by simpa using hname)]
    · next hname =>
      have hrest : rest.filter (· ∉ seen ++ [name]) =
          (rest.filter (· ∉ seen)).filter (fun other => !other == name) := by
        rw [List.filter_filter]
        refine List.filter_congr fun other _ => ?_
        by_cases hother : other = name
        · simp [hother]
        · simp [hother]
      rw [List.filter_cons_of_pos (by simpa using hname), List.eraseDups_cons, hrest,
        List.append_assoc, List.singleton_append]

section

variable {α β : Type} {entries others : List (String × α)}

theorem perm_sortEntries (entries : List (String × α)) : (sortEntries entries).Perm entries :=
  List.mergeSort_perm entries _

theorem sortEntries_singleton (entry : String × α) : sortEntries [entry] = [entry] :=
  List.mergeSort_singleton entry

theorem mem_sortEntries {entry : String × α} : entry ∈ sortEntries entries ↔ entry ∈ entries :=
  (perm_sortEntries entries).mem_iff

/-- Entries whose names differ are put in strictly increasing order. -/
theorem pairwise_sortEntries (h : (entries.map Prod.fst).Nodup) :
    (sortEntries entries).Pairwise fun a b => a.1 < b.1 := by
  have hle : (sortEntries entries).Pairwise fun a b => a.1 ≤ b.1 := by
    have hsorted := List.pairwise_mergeSort (fun a b c : String × α => decide_le_trans a.1 b.1 c.1)
      (fun a b => decide_le_total a.1 b.1) entries
    simpa [sortEntries] using hsorted
  have hne : (sortEntries entries).Pairwise fun a b => a.1 ≠ b.1 :=
    List.pairwise_map.1 (((perm_sortEntries entries).map Prod.fst).nodup_iff.2 h)
  refine hle.imp₂ (fun a b hab hne => ?_) hne
  exact String.not_le.1 fun hba => hne (String.le_antisymm hab hba)

/-- Whatever order they were in before, they end up in the same one. -/
theorem sortEntries_eq_of_perm (hperm : entries.Perm others)
    (h : (entries.map Prod.fst).Nodup) : sortEntries entries = sortEntries others := by
  have hothers : (others.map Prod.fst).Nodup := (hperm.map Prod.fst).nodup_iff.1 h
  refine List.Perm.eq_of_pairwise (fun a b _ _ hab hba => ?_) (pairwise_sortEntries h)
    (pairwise_sortEntries hothers)
    ((perm_sortEntries entries).trans (hperm.trans (perm_sortEntries others).symm))
  exact absurd (String.lt_trans hab hba) (String.lt_irrefl a.1)

/-- Entries can be sorted before or after what they hold is changed. -/
theorem sortEntries_map (g : α → β) (entries : List (String × α)) :
    sortEntries (entries.map fun e => (e.1, g e.2)) =
      (sortEntries entries).map fun e => (e.1, g e.2) := by
  refine (List.map_mergeSort (f := fun e : String × α => (e.1, g e.2)) fun a _ b _ => ?_).symm
  rfl

end

end Catalog.Text
