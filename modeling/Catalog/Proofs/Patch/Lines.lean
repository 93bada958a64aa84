import Catalog.Proofs.Patch.Guards

/-!
# Statements stand on lines of their own

The text of a script is cut into lines again before it runs. Every statement that is kept is a text
without line breaks that is not empty: the pointers of a script were checked for line breaks while
they were still escaped, an escape stands for no line break, and no value is written into the text.
So cutting the text gives back the lines that it was joined from, and every operation has a line
that is kept.
-/

namespace Catalog.Patch

/-- The last statement of an edit is no guard. -/
theorem Edit.exists_effect (create : Bool) (index : Nat) (edit : Edit) :
    ∃ e ∈ edit.emissions create index, e.role ≠ .guard := by
  obtain ⟨e, he⟩ : ∃ e, e ∈ edit.effects index := by
    refine List.exists_mem_of_ne_nil _ ?_
    cases edit <;> simp [effects]
  refine ⟨e, ?_, role_of_mem_effects he⟩
  rw [edit.emissions_eq]
  exact List.mem_append_right _ he

/-- There are at least as many statements that are no guards as there are edits. -/
theorem length_le_filter_emissions (create : Bool) (edits : List Edit) :
    edits.length ≤ ((emissions create edits).filter fun e => e.role != .guard).length := by
  rw [emissions]
  generalize 0 = start
  induction edits generalizing start with
  | nil => simp
  | cons edit edits ih =>
    obtain ⟨e, he, hrole⟩ := edit.exists_effect create start
    have hmem : e ∈ (edit.emissions create start).filter fun e => e.role != .guard :=
      List.mem_filter.2 ⟨he, by simpa using hrole⟩
    have hpos := List.length_pos_of_mem hmem
    have hrest := ih (start + 1)
    rw [List.zipIdx_cons, List.flatMap_cons, List.filter_append, List.length_append,
      List.length_cons]
    dsimp only at hrest ⊢
    omega

/-- No edit is left without a statement. -/
theorem length_le_withoutRepeats (create : Bool) (edits : List Edit) :
    edits.length ≤ (withoutRepeats [] (emissions create edits)).length := by
  calc
    edits.length ≤ ((emissions create edits).filter fun e => e.role != .guard).length :=
      length_le_filter_emissions create edits
    _ = ((withoutRepeats [] (emissions create edits)).filter fun e => e.role != .guard).length := by
      rw [filter_withoutRepeats]
    _ ≤ (withoutRepeats [] (emissions create edits)).length := List.length_filter_le _ _

/-- The lines of a script are those of the statements that are kept, in their order: joining them
and cutting the text again changes nothing. Their number is the one that the script tells. No line
is empty or holds a line break, and there are at least as many lines as operations, so only a script
without operations has none. -/
theorem lines_of_compile {create : Bool} {lang : String} {operations : List Operation} {s : Script}
    (h : compile create lang operations = .ok s) :
    ∃ edits, operations.mapM Operation.resolve = .ok edits ∧
      s.source = "\n".intercalate (assemble (emissions create edits)).lines ∧
      s.instructions = (assemble (emissions create edits)).lines ∧
      s.instructions.length = s.kept ∧
      (∀ line ∈ s.instructions, line ≠ "" ∧ Text.SingleLine line) ∧
      operations.length ≤ s.kept ∧ (s.instructions = [] ↔ operations = []) := by
  obtain ⟨edits, hedits, hr, hlines, -, -, hkept⟩ := instructions_of_compile h
  have hassembled : (assemble (emissions create edits)).lines =
      (withoutRepeats [] (emissions create edits)).map Emission.line := by
    rw [Assembly.lines, (tracks_assemble _).kept]
  have hlength : operations.length = edits.length := (Outcome.mapM_eq_ok_iff.1 hedits).length_eq
  have hle : operations.length ≤ s.kept := by
    rw [hkept, hlines, List.length_map, hlength]
    exact length_le_withoutRepeats create edits
  refine ⟨edits, hedits, ?_, hlines.trans hassembled.symm, hkept.symm, ?_, hle, ?_⟩
  · obtain ⟨edits', hedits', rfl⟩ := compile_eq_ok h
    obtain rfl : edits = edits' := Except.ok.inj (hedits.symm.trans hedits')
    rw [hassembled]
  · rw [hlines, List.forall_mem_map]
    intro e he
    have hmem := (withoutRepeats_sublist [] (emissions create edits)).subset he
    rw [line_of_mem_emissions hr hmem]
    exact ⟨e.statement.text_ne_empty, (wellWritten_emissions hr hmem).singleLine⟩
  · constructor
    · intro hnil
      rw [hkept, hnil, List.length_nil, Nat.le_zero] at hle
      exact List.eq_nil_of_length_eq_zero hle
    · rintro rfl
      obtain rfl : [] = edits := Except.ok.inj hedits
      exact hlines

/-- A key may hold an apostrophe, a tab or a line separator, and a value line breaks. -/
theorem lines_of_compile_separator :
    ∃ s, compile true defaultLang
        [.ofAdd "/it's\t/a~1b" (.text "\r\n"), .ofCopy "/a\u2028b\\/0" "/c/-"] = .ok s ∧
      s.instructions.length = s.kept ∧ 2 ≤ s.kept ∧
      ∀ line ∈ s.instructions, line ≠ "" ∧ Text.SingleLine line := by
  obtain ⟨s, hs⟩ : ∃ s, compile true defaultLang
      [.ofAdd "/it's\t/a~1b" (.text "\r\n"), .ofCopy "/a\u2028b\\/0" "/c/-"] = .ok s := ⟨_, rfl⟩
  obtain ⟨edits, -, -, -, hlength, hlines, hkept, -⟩ := lines_of_compile hs
  exact ⟨s, hs, hlength, hkept, hlines⟩

end Catalog.Patch
