/-!
# Texts with a separator

A text that is put together around a separator can be taken apart again, if the separator does not
occur in what stands on one side of it.
-/

namespace Catalog.Text

variable {α : Type} {xs ys as bs : List α} {sep : α}

/-- What stands behind the last separator is determined by the whole. -/
theorem eq_of_append_cons_eq (ha : sep ∉ as) (hb : sep ∉ bs)
    (h : xs ++ sep :: as = ys ++ sep :: bs) : as = bs := by
  rcases List.append_eq_append_iff.1 h with ⟨mid, -, hmid⟩ | ⟨mid, -, hmid⟩
  · cases mid with
    | nil => exact (List.cons.inj hmid).2
    | cons c mid =>
      have hmem : sep ∈ as := by rw [(List.cons.inj hmid).2]; simp
      exact absurd hmem ha
  · cases mid with
    | nil => exact (List.cons.inj hmid).2.symm
    | cons c mid =>
      have hmem : sep ∈ bs := by rw [(List.cons.inj hmid).2]; simp
      exact absurd hmem hb

/-- So is what stands in front of it. -/
theorem append_cons_inj (ha : sep ∉ as) (hb : sep ∉ bs)
    (h : xs ++ sep :: as = ys ++ sep :: bs) : xs = ys ∧ as = bs := by
  obtain rfl := eq_of_append_cons_eq ha hb h
  exact ⟨List.append_cancel_right h, rfl⟩

/-- The same for the first separator. -/
theorem cons_append_inj (ha : sep ∉ as) (hb : sep ∉ bs)
    (h : as ++ sep :: xs = bs ++ sep :: ys) : as = bs ∧ xs = ys := by
  have hreverse := congrArg List.reverse h
  simp only [List.reverse_append, List.reverse_cons, List.append_assoc,
    List.singleton_append] at hreverse
  obtain ⟨hxs, has⟩ := append_cons_inj (by simpa using ha) (by simpa using hb) hreverse
  exact ⟨List.reverse_inj.1 has, List.reverse_inj.1 hxs⟩

/-- A piece between two separators holds none. -/
theorem notMem_of_mem_splitOn [DecidableEq α] {cs piece : List α} (h : piece ∈ cs.splitOn sep) :
    sep ∉ piece := by
  induction cs generalizing piece with
  | nil =>
    rw [List.splitOn_nil, List.mem_singleton] at h
    simp [h]
  | cons c cs ih =>
    rw [List.splitOn_cons_eq_if_modifyHead] at h
    split at h
    · rcases List.mem_cons.1 h with rfl | h
      · exact List.not_mem_nil
      · exact ih h
    · next hc =>
      cases hs : cs.splitOn sep with
      | nil => simp [hs] at h
      | cons first rest =>
        rw [hs] at h
        rcases List.mem_cons.1 h with rfl | h
        · have hf := ih (hs ▸ List.mem_cons_self ..)
          rw [List.mem_cons, not_or]
          exact ⟨fun he => hc (by simp [he]), hf⟩
        · exact ih (hs ▸ List.mem_cons_of_mem _ h)

end Catalog.Text
