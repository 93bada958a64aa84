import Catalog.Filter.Compile
import Catalog.Proofs.Filter.Leaves
import Catalog.Proofs.Filter.Tokens

/-!
# Why compiling a filter fails

Only leaves can be at fault, and a filter fails with the fault of its first faulty leaf, wherever in
the tree that stands. What is read never has a childless connective or a comparison that misses its
literal. So the only fault that compiling finds in a filter that was read is a pattern that escapes
what needs no escape.
-/

namespace Catalog

namespace Filter

variable {o : FilterOptions}

/-- What is wrong with a leaf. -/
inductive Fault : Filter → CompileError → Prop where
  | childless (op : Connective) : Fault (.connective op []) (.arity op.name .atLeastOne 0)
  /-- Only a test for absence needs no literal. -/
  | literal {op : Comparison} (property : String) (h : op ≠ .isNull) :
    Fault (.comparison op property none) (.arity op.name (.exactly 2) 1)
  | pattern {pattern : String} {position : Nat} (property : String)
    (h : Like.StopsAt pattern.toList position) :
    Fault (.like property pattern) (.escapeSequence pattern position)

/-- The first leaf with a fault has this one. -/
def FirstFault (f : Filter) (e : CompileError) : Prop :=
  ∃ before leaf after, f.leaves = before ++ leaf :: after ∧
    (∀ g ∈ before, ∀ e', ¬g.Fault e') ∧ leaf.Fault e

theorem compile_like_eq_error_iff {property pattern : String} {e : CompileError} :
    (like property pattern).compile o = .error e ↔ Like.translate pattern = .error e := by
  rw [compile, Outcome.bind_pure_eq_error_iff]

/-- A leaf fails for its own fault. -/
theorem compile_eq_error_iff_fault {f : Filter} (hf : ∀ op g rest, f ≠ .connective op (g :: rest))
    {e : CompileError} : f.compile o = .error e ↔ f.Fault e := by
  constructor
  · intro h
    cases f with
    | connective op children =>
      cases children with
      | nil =>
        cases h
        exact .childless op
      | cons g rest => exact absurd rfl (hf op g rest)
    | comparison op property literal =>
      cases literal with
      | none =>
        rw [compile, compileComparison] at h
        split at h
        · cases h
        · next hop =>
          cases h
          exact .literal property hop
      | some literal => cases h
    | like property pattern =>
      obtain ⟨position, hstops, rfl⟩ :=
        Like.translate_eq_error_iff.1 (compile_like_eq_error_iff.1 h)
      exact .pattern property hstops
    | between => cases h
    | oneOf => cases h
    | spatial => cases h
  · intro h
    cases h with
    | childless op => rfl
    | literal property hop => rw [compile, compileComparison, if_neg hop]
    | pattern property hstops =>
      exact compile_like_eq_error_iff.2 (Like.translate_eq_error_iff.2 ⟨_, hstops, rfl⟩)

theorem compile_connective_eq_error_iff {op : Connective} {f : Filter} {rest : List Filter}
    {e : CompileError} :
    (connective op (f :: rest)).compile o = .error e ↔ compileAll o (f :: rest) = .error e := by
  rw [compile, Outcome.bind_pure_eq_error_iff]

/-- Filters that are compiled in order fail as the first of them does, or else as the others do. -/
theorem compileAll_cons_eq_error_iff {f : Filter} {rest : List Filter} {e : CompileError} :
    compileAll o (f :: rest) = .error e ↔
      f.compile o = .error e ∨ (∃ c, f.compile o = .ok c) ∧ compileAll o rest = .error e := by
  rw [compileAll, Outcome.bind_eq_error_iff]
  simp only [Outcome.bind_pure_eq_error_iff, exists_and_right]

mutual

/-- A filter fails as its leaves do, compiled one after the other. -/
theorem compile_eq_error_iff_leaves : ∀ (f : Filter) {e : CompileError},
    f.compile o = .error e ↔ f.leaves.mapM (compile o) = .error e
  | .connective op [], e => Outcome.mapM_singleton_eq_error_iff.symm
  | .connective op (f :: rest), e => by
    rw [compile_connective_eq_error_iff, compileAll_eq_error_iff_leaves (f :: rest), leaves]
  | .comparison .., e | .like .., e | .between .., e | .oneOf .., e | .spatial .., e =>
    Outcome.mapM_singleton_eq_error_iff.symm

theorem compileAll_eq_error_iff_leaves : ∀ (fs : List Filter) {e : CompileError},
    compileAll o fs = .error e ↔ (leavesEach fs).mapM (compile o) = .error e
  | [], e => by simp [compileAll, leavesEach, pure, Except.pure]
  | f :: rest, e => by
    have hfirst : (∃ c, f.compile o = .ok c) ↔ ∃ cs, f.leaves.mapM (compile o) = .ok cs := by
      simp only [Outcome.exists_eq_ok_iff, ne_eq, compile_eq_error_iff_leaves f]
    rw [compileAll_cons_eq_error_iff, leavesEach, Outcome.mapM_append_eq_error_iff,
      compile_eq_error_iff_leaves f, compileAll_eq_error_iff_leaves rest, hfirst]

end

theorem exists_compile_iff_of_mem_leaves {f leaf : Filter} (h : leaf ∈ f.leaves) :
    (∃ c, leaf.compile o = .ok c) ↔ ∀ e, ¬leaf.Fault e := by
  simp only [Outcome.exists_eq_ok_iff, ne_eq,
    compile_eq_error_iff_fault (ne_connective_of_mem_leaves h)]

/-- A filter fails with its first fault. -/
theorem compile_eq_error_iff_firstFault {f : Filter} {e : CompileError} :
    f.compile o = .error e ↔ f.FirstFault e := by
  rw [compile_eq_error_iff_leaves, Outcome.mapM_eq_error_iff, FirstFault]
  refine exists_congr fun before => exists_congr fun leaf => exists_congr fun after =>
    and_congr_right fun hleaves => and_congr ?_ ?_
  · refine forall₂_congr fun g hg => exists_compile_iff_of_mem_leaves (f := f) ?_
    rw [hleaves]
    exact List.mem_append_left _ hg
  · refine compile_eq_error_iff_fault (ne_connective_of_mem_leaves (f := f) ?_)
    simp [hleaves]

theorem exists_compile_iff {f : Filter} :
    (∃ c, f.compile o = .ok c) ↔ ∀ leaf ∈ f.leaves, ∀ e, ¬leaf.Fault e := by
  have hleaves : (∃ c, f.compile o = .ok c) ↔ ∃ cs, f.leaves.mapM (compile o) = .ok cs := by
    simp only [Outcome.exists_eq_ok_iff, ne_eq, compile_eq_error_iff_leaves f]
  rw [hleaves, Outcome.exists_mapM_eq_ok_iff]
  exact forall₂_congr fun leaf hleaf => exists_compile_iff_of_mem_leaves hleaf

/-- A sound leaf has no fault but in its pattern. -/
theorem Fault.exists_like {leaf : Filter} {e : CompileError} (h : leaf.Fault e)
    (hsound : leaf.IsSound) : ∃ property pattern position, leaf = .like property pattern ∧
      Like.StopsAt pattern.toList position ∧ e = .escapeSequence pattern position := by
  cases h with
  | childless op => exact absurd rfl hsound
  | literal property hop => exact absurd (hsound.1.2 hop) (by simp)
  | pattern property hstops => exact ⟨property, _, _, rfl, hstops, rfl⟩

/-- The first pattern that is not translated is this one, and it stops at this position. -/
def FirstUnreadable (f : Filter) (pattern : String) (position : Nat) : Prop :=
  ∃ before property after, f.leaves = before ++ .like property pattern :: after ∧
    (∀ name earlier, .like name earlier ∈ before → ∀ n, ¬Like.StopsAt earlier.toList n) ∧
    Like.StopsAt pattern.toList position

/-- Where all leaves are sound, the first fault is that of the first pattern that is not
translated. -/
theorem FirstFault.firstUnreadable {f : Filter} {e : CompileError} (h : f.FirstFault e)
    (hsound : ∀ leaf ∈ f.leaves, leaf.IsSound) :
    ∃ pattern position, f.FirstUnreadable pattern position ∧
      e = .escapeSequence pattern position := by
  obtain ⟨before, leaf, after, hleaves, hbefore, hfault⟩ := h
  obtain ⟨property, pattern, position, rfl, hstops, rfl⟩ :=
    hfault.exists_like (hsound leaf (by simp [hleaves]))
  refine ⟨pattern, position, ⟨before, property, after, hleaves, ?_, hstops⟩, rfl⟩
  intro name earlier hearlier n hstopsEarlier
  exact hbefore _ hearlier _ (.pattern name hstopsEarlier)

/-- Compiling fails exactly when some leaf is faulty, with the fault of the first such leaf. A
filter that was read compiles, or fails with the first of its patterns that is not translated. -/
theorem compile_by_faults (f : Filter) (o : FilterOptions) :
    ((∃ c, f.compile o = .ok c) ↔ ∀ leaf ∈ f.leaves, ∀ e, ¬leaf.Fault e) ∧
    (∀ e, f.compile o = .error e ↔ f.FirstFault e) ∧
    ∀ v, read v = .ok f →
      (∃ c, f.compile o = .ok c) ∨
      ∃ pattern position, f.FirstUnreadable pattern position ∧
        f.compile o = .error (.escapeSequence pattern position) := by
  refine ⟨exists_compile_iff, fun e => compile_eq_error_iff_firstFault, fun v hv => ?_⟩
  have hsound : ∀ leaf ∈ f.leaves, leaf.IsSound := by
    intro leaf hleaf
    obtain ⟨n, hnode⟩ := exists_hasNode_of_mem_leaves hleaf
    exact (sound_of_readWithin hv hnode).2
  cases h : f.compile o with
  | ok c => exact .inl ⟨c, rfl⟩
  | error e =>
    obtain ⟨pattern, position, hfirst, rfl⟩ :=
      (compile_eq_error_iff_firstFault.1 h).firstUnreadable hsound
    exact .inr ⟨pattern, position, hfirst, rfl⟩

theorem compile_by_faults_second_pattern :
    ∃ f, read (call "AND" [call "like" [reference "id", .text "%"],
        call "like" [reference "a", .text "a\\x"],
        call "like" [reference "b", .text "\\"]]) = .ok f ∧
      f.FirstUnreadable "a\\x" 1 ∧
      f.compile ⟨Mapping.empty, true⟩ = .error (.escapeSequence "a\\x" 1) := by
  let f : Filter := .connective .all [.like "id" "%", .like "a" "a\\x", .like "b" "\\"]
  have hread : read (call "AND" [call "like" [reference "id", .text "%"],
      call "like" [reference "a", .text "a\\x"],
      call "like" [reference "b", .text "\\"]]) = .ok f := by
    have hand : Operator.ofName? "AND" = some (.connective .all) := by decide +kernel
    have hlike (property pattern : String) :
        readWithin 64 (like property pattern).toJson = .ok (like property pattern) :=
      readWithin_toJson_leaf (f := .like property pattern) trivial trivial 63
    refine readWithin_connective hand (by simp) ?_
    rw [Outcome.mapM_eq_ok_iff]
    exact .cons (hlike _ _) (.cons (hlike _ _) (.cons (hlike _ _) .nil))
  have hcompile : f.compile ⟨Mapping.empty, true⟩ = .error (.escapeSequence "a\\x" 1) := rfl
  obtain ⟨-, -, hknown⟩ := compile_by_faults f ⟨Mapping.empty, true⟩
  refine ⟨f, hread, ?_, hcompile⟩
  rcases hknown _ hread with ⟨c, hc⟩ | ⟨pattern, position, hfirst, herror⟩
  · cases hcompile.symm.trans hc
  · cases hcompile.symm.trans herror
    exact hfirst

end Filter

end Catalog
