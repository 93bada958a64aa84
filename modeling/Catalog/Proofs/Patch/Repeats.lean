import Catalog.Proofs.Patch.Named

/-!
# Dropping repeated guards

A guard is dropped when an equal guard stands somewhere before it with no removal in between. The
assembly of a script decides this from the lines of the guards in force alone: they are exactly the
lines of the guards behind the last removal, whether these guards were kept or dropped themselves.
-/

namespace Catalog.Patch

/-- Some guard has this line, and no removal comes after it. -/
def InForce (line : String) (before : List Emission) : Prop :=
  ∃ xs g ys, before = xs ++ g :: ys ∧ g.role = .guard ∧ g.line = line ∧
    ∀ r ∈ ys, r.role ≠ .removal

/-- The statement is a guard, and an equal guard before it is still in force. -/
def IsRepeat (e : Emission) (before : List Emission) : Prop :=
  e.role = .guard ∧ InForce e.line before

theorem not_inForce_nil (line : String) : ¬InForce line [] := by
  rintro ⟨xs, g, ys, h, -⟩
  simp at h

/-- One more statement puts its own line in force when it is a guard, ends the force of all lines
when it is a removal, and otherwise changes nothing. -/
theorem inForce_append_singleton (line : String) (before : List Emission) (e : Emission) :
    InForce line (before ++ [e]) ↔
      e.role ≠ .removal ∧ ((e.role = .guard ∧ e.line = line) ∨ InForce line before) := by
  constructor
  · rintro ⟨xs, g, ys, h, hg, hl, hys⟩
    rcases List.eq_nil_or_concat ys with rfl | ⟨zs, r, rfl⟩
    · obtain ⟨rfl, he⟩ := List.append_inj' h rfl
      obtain rfl : e = g := by simpa using he
      exact ⟨by simp [hg], .inl ⟨hg, hl⟩⟩
    · rw [List.concat_eq_append] at h hys
      have hsplit : before ++ [e] = (xs ++ g :: zs) ++ [r] := by rw [h]; simp
      obtain ⟨rfl, he⟩ := List.append_inj' hsplit rfl
      obtain rfl : e = r := by simpa using he
      exact ⟨hys e (by simp), .inr ⟨xs, g, zs, rfl, hg, hl, fun r hr => hys r (by simp [hr])⟩⟩
  · rintro ⟨he, ⟨hg, hl⟩ | ⟨xs, g, ys, rfl, hg, hl, hys⟩⟩
    · exact ⟨before, e, [], rfl, hg, hl, by simp⟩
    · refine ⟨xs, g, ys ++ [e], by simp, hg, hl, ?_⟩
      rw [List.forall_mem_append, List.forall_mem_singleton]
      exact ⟨hys, he⟩

theorem inForce_append (line : String) (xs ys : List Emission) :
    InForce line (xs ++ ys) ↔
      InForce line ys ∨ (InForce line xs ∧ ∀ r ∈ ys, r.role ≠ .removal) := by
  induction ys using List.reverseRecOn with
  | nil => simp [not_inForce_nil]
  | append_singleton ys e ih =>
    rw [← List.append_assoc, inForce_append_singleton, ih, inForce_append_singleton,
      List.forall_mem_append, List.forall_mem_singleton]
    tauto

/-- The guards in force are found from the last statement backwards, up to a removal. -/
theorem inForce_iff_any (line : String) (before : List Emission) :
    InForce line before ↔
      (before.reverse.takeWhile fun r => r.role != .removal).any
        (fun g => g.role == .guard && g.line == line) = true := by
  induction before using List.reverseRecOn with
  | nil => simp [not_inForce_nil]
  | append_singleton before e ih =>
    rw [inForce_append_singleton, ih, List.reverse_append, List.reverse_singleton,
      List.singleton_append, List.takeWhile_cons]
    by_cases he : e.role = .removal
    · simp [he]
    · simp [he]

instance (line : String) (before : List Emission) : Decidable (InForce line before) :=
  decidable_of_iff _ (inForce_iff_any line before).symm

instance (e : Emission) (before : List Emission) : Decidable (IsRepeat e before) :=
  inferInstanceAs (Decidable (e.role = .guard ∧ InForce e.line before))

/-- Statements that follow others, without the guards that repeat one before them. -/
def withoutRepeats : List Emission → List Emission → List Emission
  | _, [] => []
  | before, e :: rest =>
    if IsRepeat e before then withoutRepeats (before ++ [e]) rest
    else e :: withoutRepeats (before ++ [e]) rest

theorem withoutRepeats_append (before xs ys : List Emission) :
    withoutRepeats before (xs ++ ys) =
      withoutRepeats before xs ++ withoutRepeats (before ++ xs) ys := by
  induction xs generalizing before with
  | nil => simp [withoutRepeats]
  | cons x xs ih =>
    rw [List.cons_append, withoutRepeats, withoutRepeats, ih, List.append_assoc,
      List.singleton_append]
    split
    · rfl
    · rfl

/-- Statements are dropped and never moved. -/
theorem withoutRepeats_sublist (before es : List Emission) :
    (withoutRepeats before es).Sublist es := by
  induction es generalizing before with
  | nil => exact .slnil
  | cons e es ih =>
    rw [withoutRepeats]
    split
    · exact (ih _).cons e
    · exact (ih _).cons_cons e

/-- Everything that is no guard is kept, as often as it stands there and in the same order. -/
theorem filter_withoutRepeats (before es : List Emission) :
    (withoutRepeats before es).filter (fun e => e.role != .guard) =
      es.filter fun e => e.role != .guard := by
  induction es generalizing before with
  | nil => rfl
  | cons e es ih =>
    rw [withoutRepeats]
    split
    · next he => rw [ih, List.filter_cons_of_neg (by simp [he.1])]
    · rw [List.filter_cons, List.filter_cons, ih]

theorem mem_withoutRepeats_of_role (before : List Emission) {es : List Emission} {e : Emission}
    (he : e ∈ es) (hrole : e.role ≠ .guard) : e ∈ withoutRepeats before es := by
  have hmem : e ∈ (withoutRepeats before es).filter fun e => e.role != .guard := by
    rw [filter_withoutRepeats]
    exact List.mem_filter.2 ⟨he, by simpa using hrole⟩
  exact List.mem_of_mem_filter hmem

/-- Nothing but guards is ever dropped. -/
theorem withoutRepeats_eq_self (before : List Emission) {es : List Emission}
    (h : ∀ e ∈ es, e.role ≠ .guard) :
    withoutRepeats before es = es := by
  induction es generalizing before with
  | nil => rfl
  | cons e es ih =>
    obtain ⟨he, hes⟩ := List.forall_mem_cons.1 h
    rw [withoutRepeats, if_neg fun hr => he hr.1, ih _ hes]

/-- A statement that is no guard is kept behind those before it. -/
theorem withoutRepeats_append_singleton (before es : List Emission) {e : Emission}
    (he : e.role ≠ .guard) :
    withoutRepeats before (es ++ [e]) = withoutRepeats before es ++ [e] := by
  rw [withoutRepeats_append, withoutRepeats_eq_self _ (List.forall_mem_singleton.2 he)]

/-- Dropping repeated guards leaves the same lines in force. -/
theorem inForce_withoutRepeats (line : String) (before es : List Emission) :
    InForce line (before ++ withoutRepeats before es) ↔ InForce line (before ++ es) := by
  induction es using List.reverseRecOn with
  | nil => rfl
  | append_singleton es e ih =>
    rw [withoutRepeats_append, ← List.append_assoc, ← List.append_assoc, inForce_append_singleton]
    by_cases hrepeat : IsRepeat e (before ++ es)
    · obtain ⟨hguard, hforce⟩ := hrepeat
      rw [withoutRepeats, if_pos ⟨hguard, hforce⟩, withoutRepeats, List.append_nil, ih]
      constructor
      · exact fun h => ⟨by simp [hguard], .inr h⟩
      · rintro ⟨-, ⟨-, rfl⟩ | h⟩
        · exact hforce
        · exact h
    · rw [withoutRepeats, if_neg hrepeat, withoutRepeats, inForce_append_singleton, ih]

/-- A statement that is kept repeats none before it, and what is kept before it comes from what stands
before it. -/
theorem exists_split_of_withoutRepeats_eq {before es front back : List Emission} {e : Emission}
    (h : withoutRepeats before es = front ++ e :: back) :
    ∃ xs ys, es = xs ++ e :: ys ∧ front = withoutRepeats before xs ∧ ¬IsRepeat e (before ++ xs) := by
  induction es generalizing before front with
  | nil => simp [withoutRepeats] at h
  | cons f es ih =>
    rw [withoutRepeats] at h
    split at h
    · next hrepeat =>
      obtain ⟨xs, ys, rfl, rfl, hnot⟩ := ih h
      exact ⟨f :: xs, ys, rfl, by rw [withoutRepeats, if_pos hrepeat], by simpa using hnot⟩
    · next hrepeat =>
      cases front with
      | nil =>
        obtain ⟨rfl, -⟩ := List.cons.inj h
        exact ⟨[], es, rfl, rfl, by simpa using hrepeat⟩
      | cons g front =>
        obtain ⟨rfl, hrest⟩ := List.cons.inj h
        obtain ⟨xs, ys, rfl, rfl, hnot⟩ := ih hrest
        exact ⟨f :: xs, ys, rfl, by rw [withoutRepeats, if_neg hrepeat], by simpa using hnot⟩

/-- A statement is kept unless one with its line stands before it. -/
theorem exists_mem_withoutRepeats (before : List Emission) {es : List Emission} {e : Emission}
    (he : e ∈ es) :
    ∃ g ∈ before ++ withoutRepeats before es, g.line = e.line := by
  induction es generalizing before with
  | nil => simp at he
  | cons f es ih =>
    rw [withoutRepeats]
    split
    · next hrepeat =>
      obtain ⟨xs, g, ys, rfl, -, hline, -⟩ := hrepeat.2
      rcases List.mem_cons.1 he with rfl | he
      · exact ⟨g, by simp, hline⟩
      · obtain ⟨k, hk, hke⟩ := ih (xs ++ g :: ys ++ [f]) he
        rw [List.append_assoc, List.mem_append, List.singleton_append, List.mem_cons] at hk
        rcases hk with hk | rfl | hk
        · exact ⟨k, List.mem_append_left _ hk, hke⟩
        · exact ⟨g, by simp, hline.trans hke⟩
        · exact ⟨k, List.mem_append_right _ hk, hke⟩
    · rcases List.mem_cons.1 he with rfl | he
      · exact ⟨e, by simp, rfl⟩
      · obtain ⟨k, hk, hke⟩ := ih (before ++ [f]) he
        exact ⟨k, by simpa using hk, hke⟩

/-- Each group of statements keeps a part of its own, and the parts stay in the order of the
groups. -/
theorem exists_parts_withoutRepeats (before : List Emission) (groups : List (List Emission)) :
    ∃ parts, List.Forall₂ List.Sublist parts groups ∧
      withoutRepeats before groups.flatten = parts.flatten := by
  induction groups generalizing before with
  | nil => exact ⟨[], .nil, rfl⟩
  | cons group groups ih =>
    obtain ⟨parts, hparts, he⟩ := ih (before ++ group)
    refine ⟨withoutRepeats before group :: parts, .cons (withoutRepeats_sublist _ _) hparts, ?_⟩
    rw [List.flatten_cons, withoutRepeats_append, he, List.flatten_cons]

/-- What an assembly remembers of the statements that it took. -/
structure Assembly.Tracks (a : Assembly) (before : List Emission) : Prop where
  kept : a.kept = withoutRepeats [] before
  inForce : ∀ line, line ∈ a.inForce ↔ InForce line before
  taken : a.taken = before.length

namespace Assembly

theorem tracks_empty : empty.Tracks [] := by
  refine ⟨rfl, fun line => ?_, rfl⟩
  simp [empty, not_inForce_nil]

/-- Taking a statement keeps track of it. -/
theorem Tracks.take {a : Assembly} {before : List Emission} (h : a.Tracks before)
    (e : Emission) : (a.take e).Tracks (before ++ [e]) := by
  have hkept : withoutRepeats [] (before ++ [e]) =
      a.kept ++ if IsRepeat e before then [] else [e] := by
    rw [withoutRepeats_append, ← h.kept, List.nil_append]
    simp only [withoutRepeats]
  have htaken : a.taken + 1 = (before ++ [e]).length := by simp [h.taken]
  unfold Assembly.take
  split
  · next hrole =>
    split
    · next hmem =>
      have hforce : InForce e.line before := (h.inForce _).1 hmem
      refine ⟨?_, fun line => ?_, htaken⟩
      · rw [hkept, if_pos ⟨hrole, hforce⟩, List.append_nil]
      · rw [h.inForce, inForce_append_singleton]
        constructor
        · exact fun hl => ⟨by simp [hrole], .inr hl⟩
        · rintro ⟨-, ⟨-, rfl⟩ | hl⟩
          · exact hforce
          · exact hl
    · next hmem =>
      refine ⟨?_, fun line => ?_, htaken⟩
      · rw [hkept, if_neg fun hr => hmem ((h.inForce _).2 hr.2)]
      · rw [inForce_append_singleton, List.mem_cons, h.inForce, hrole]
        simp [eq_comm]
  · next hrole =>
    refine ⟨?_, fun line => ?_, htaken⟩
    · rw [hkept, if_neg (by simp [IsRepeat, hrole])]
    · simp [inForce_append_singleton, hrole]
  · next hrole =>
    refine ⟨?_, fun line => ?_, htaken⟩
    · rw [hkept, if_neg (by simp [IsRepeat, hrole])]
    · simp [inForce_append_singleton, hrole, h.inForce]

end Assembly

/-- The assembly of statements keeps track of all of them. -/
theorem tracks_assemble (es : List Emission) : (assemble es).Tracks es := by
  induction es using List.reverseRecOn with
  | nil => exact Assembly.tracks_empty
  | append_singleton es e ih =>
    rw [assemble, List.foldl_append]
    exact ih.take e

/-- A script that is compiled is assembled from the statements of the edits. -/
theorem compile_eq_ok {create : Bool} {lang : String} {operations : List Operation} {s : Script}
    (h : compile create lang operations = .ok s) :
    ∃ edits, operations.mapM Operation.resolve = .ok edits ∧
      s = ⟨"\n".intercalate ((withoutRepeats [] (emissions create edits)).map Emission.line), lang,
        parameters edits, (emissions create edits).length,
        (withoutRepeats [] (emissions create edits)).length⟩ := by
  obtain ⟨edits, hedits, h⟩ := Outcome.bind_eq_ok_iff.1 h
  have ht := tracks_assemble (emissions create edits)
  cases h
  refine ⟨edits, hedits, ?_⟩
  rw [Assembly.lines, ht.kept, ht.taken]

/-- The statements of the script of a list of operations. -/
def program (create : Bool) (operations : List Operation) :
    Except CompileError (List Catalog.Script.Statement) := do
  let edits ← operations.mapM Operation.resolve
  return (assemble (emissions create edits)).kept.map Emission.statement

/-- Statements of edits are read back from the lines of their script. -/
theorem lines_of_sublist {create : Bool} {edits : List Edit}
    (hr : ∀ edit ∈ edits, edit.Resolved) {es : List Emission}
    (hes : es.Sublist (emissions create edits)) :
    Text.lines ("\n".intercalate (es.map Emission.line)) = es.map Emission.line := by
  apply Text.lines_intercalate
  · intro l hl
    obtain ⟨e, he, rfl⟩ := List.mem_map.1 hl
    rw [line_of_mem_emissions hr (hes.subset he)]
    exact e.statement.text_ne_empty
  · intro l hl
    obtain ⟨e, he, rfl⟩ := List.mem_map.1 hl
    rw [line_of_mem_emissions hr (hes.subset he)]
    exact (wellWritten_emissions hr (hes.subset he)).singleLine

/-- The lines of a script are those of the statements of its edits that are kept. -/
theorem instructions_of_compile {create : Bool} {lang : String} {operations : List Operation}
    {s : Script} (h : compile create lang operations = .ok s) :
    ∃ edits, operations.mapM Operation.resolve = .ok edits ∧
      (∀ edit ∈ edits, edit.Resolved) ∧
      s.instructions = (withoutRepeats [] (emissions create edits)).map Emission.line ∧
      s.params = parameters edits ∧ s.emitted = (emissions create edits).length ∧
      s.kept = s.instructions.length := by
  obtain ⟨edits, hedits, rfl⟩ := compile_eq_ok h
  have hr : ∀ edit ∈ edits, edit.Resolved := fun _ => Operation.resolved_of_mapM hedits
  have hlines := lines_of_sublist hr (withoutRepeats_sublist [] (emissions create edits))
  refine ⟨edits, hedits, hr, hlines, rfl, rfl, ?_⟩
  rw [Script.instructions, hlines, List.length_map]

/-- A script is written from its statements, line by line. -/
theorem program_of_compile {create : Bool} {lang : String} {operations : List Operation}
    {s : Script} (h : compile create lang operations = .ok s) :
    ∃ edits statements, operations.mapM Operation.resolve = .ok edits ∧
      program create operations = .ok statements ∧
      statements = (withoutRepeats [] (emissions create edits)).map Emission.statement ∧
      s.instructions = statements.map Catalog.Script.Statement.text ∧
      s.params = parameters edits := by
  obtain ⟨edits, hedits, hr, hlines, hparams, -⟩ := instructions_of_compile h
  refine ⟨edits, _, hedits, ?_, rfl, ?_, hparams⟩
  · rw [program, hedits, ← (tracks_assemble _).kept]
    rfl
  · rw [hlines, List.map_map]
    exact List.map_congr_left fun e he =>
      line_of_mem_emissions hr ((withoutRepeats_sublist _ _).subset he)

/-- A script holds the statements of its operations without the guards that repeat one in force.
Every other statement is kept with its multiplicity and in order, the statements of an operation
stay before those of the operations behind it, and the counts are those of all statements and of
the lines. -/
theorem instructions_eq_withoutRepeats {create : Bool} {lang : String}
    {operations : List Operation} {s : Script} (h : compile create lang operations = .ok s) :
    ∃ edits kept, operations.mapM Operation.resolve = .ok edits ∧
      kept = withoutRepeats [] (emissions create edits) ∧
      s.instructions = kept.map Emission.line ∧
      kept.filter (fun e => e.role != .guard) =
        (emissions create edits).filter (fun e => e.role != .guard) ∧
      (∃ parts, kept = parts.flatten ∧
        List.Forall₂ (fun part edit => List.Sublist part (Edit.emissions create edit.2 edit.1))
          parts edits.zipIdx) ∧
      s.emitted = (emissions create edits).length ∧ s.kept = s.instructions.length ∧
      s.kept ≤ s.emitted := by
  obtain ⟨edits, hedits, -, hlines, -, hemitted, hkept⟩ := instructions_of_compile h
  have hsub := withoutRepeats_sublist [] (emissions create edits)
  obtain ⟨parts, hparts, hflat⟩ :=
    exists_parts_withoutRepeats [] (edits.zipIdx.map fun e => e.1.emissions create e.2)
  rw [List.forall₂_map_right_iff] at hparts
  refine ⟨edits, _, hedits, rfl, hlines, filter_withoutRepeats _ _, ⟨parts, hflat, hparts⟩,
    hemitted, hkept, ?_⟩
  rw [hkept, hlines, List.length_map, hemitted]
  exact hsub.length_le

theorem instructions_of_test_remove_add_remove :
    ∃ s, compile false defaultLang
        [.ofTest "/a" .null, .ofRemove "/a", .ofAdd "/a" .null, .ofRemove "/a"] = .ok s ∧
      s.emitted = 7 ∧ s.instructions.length = 6 := by
  obtain ⟨s, hs⟩ : ∃ s, compile false defaultLang
      [.ofTest "/a" .null, .ofRemove "/a", .ofAdd "/a" .null, .ofRemove "/a"] = .ok s := ⟨_, rfl⟩
  have hcounts : (compile false defaultLang
      [.ofTest "/a" .null, .ofRemove "/a", .ofAdd "/a" .null, .ofRemove "/a"]).toOption.map
        (fun s => (s.emitted, s.kept)) = some (7, 6) := by decide +kernel
  rw [hs, Except.toOption, Option.map_some, Option.some.injEq, Prod.mk.injEq] at hcounts
  obtain ⟨edits, kept, -, -, -, -, -, -, hkept, -⟩ := instructions_eq_withoutRepeats hs
  exact ⟨s, hs, hcounts.1, hkept.symm.trans hcounts.2⟩

end Catalog.Patch
