import Catalog.Proofs.Patch.Repeats

/-!
# Scripts need no mending

A statement becomes a line of a script after a pass that mends its accessor chains, and repeated
guards are found by comparing such lines. Here the line of a statement is a parameter of compiling.
Every statement that compiling emits is left as it is by the pass, whatever the keys of the pointers
hold, so taking the bare text of each statement for its line gives the same script.
-/

namespace Catalog.Patch

namespace Assembly

/-- Take one more statement, with the line that `line` makes of it. -/
def takeBy (line : Emission → String) (a : Assembly) (e : Emission) : Assembly :=
  match e.role with
  | .guard =>
    if line e ∈ a.inForce then { a with taken := a.taken + 1 }
    else ⟨a.kept ++ [e], line e :: a.inForce, a.taken + 1⟩
  | .removal => ⟨a.kept ++ [e], [], a.taken + 1⟩
  | .effect => ⟨a.kept ++ [e], a.inForce, a.taken + 1⟩

/-- Of the lines, taking a statement depends on its own one alone. -/
theorem takeBy_congr {f g : Emission → String} (a : Assembly) {e : Emission} (h : f e = g e) :
    a.takeBy f e = a.takeBy g e := by
  rw [takeBy, takeBy, h]

end Assembly

/-- Take all statements in order, with the lines that `line` makes of them. -/
def assembleBy (line : Emission → String) (es : List Emission) : Assembly :=
  es.foldl (Assembly.takeBy line) Assembly.empty

theorem assembleBy_congr {f g : Emission → String} {es : List Emission}
    (h : ∀ e ∈ es, f e = g e) : assembleBy f es = assembleBy g es :=
  List.foldl_ext _ _ _ fun a _ he => a.takeBy_congr (h _ he)

/-- Only statements that were taken are kept. -/
theorem mem_of_mem_kept {es : List Emission} {e : Emission} (h : e ∈ (assemble es).kept) :
    e ∈ es := by
  rw [(tracks_assemble es).kept] at h
  exact (withoutRepeats_sublist [] es).subset h

/-- The script of a list of operations, with the lines that `line` makes of its statements. -/
def compileBy (line : Emission → String) (create : Bool) (lang : String)
    (operations : List Operation) : Except CompileError Script := do
  let edits ← operations.mapM Operation.resolve
  let assembly := assembleBy line (emissions create edits)
  return {
    source := "\n".intercalate (assembly.kept.map line)
    lang := lang
    params := parameters edits
    emitted := assembly.taken
    kept := assembly.kept.length }

/-- Compiling uses the lines that are left by the pass over accessors. -/
theorem compileBy_line : compileBy Emission.line = compile := rfl

/-- Compiling gives the same with and without the pass over accessors, also where it fails. -/
theorem compileBy_text (create : Bool) (lang : String) (operations : List Operation) :
    compileBy (fun e => e.statement.text) create lang operations =
      compile create lang operations := by
  rw [← compileBy_line, compileBy, compileBy]
  cases hedits : operations.mapM Operation.resolve with
  | error e => rfl
  | ok edits =>
    have hr : ∀ edit ∈ edits, edit.Resolved := fun _ => Operation.resolved_of_mapM hedits
    have hassembly : assembleBy (fun e => e.statement.text) (emissions create edits) =
        assembleBy Emission.line (emissions create edits) :=
      assembleBy_congr fun e he => (line_of_mem_emissions hr he).symm
    have hlines : ((assembleBy Emission.line (emissions create edits)).kept.map
          fun e => e.statement.text) =
        (assembleBy Emission.line (emissions create edits)).kept.map Emission.line := by
      apply List.map_congr_left
      intro e he
      exact (line_of_mem_emissions hr (mem_of_mem_kept he)).symm
    simp only [bind, Except.bind, hassembly, hlines]

/-- The pass over accessors changes no statement that compiling emits. So the script is the one that
is assembled without the pass. -/
theorem normalize_text_of_compile {create : Bool} {lang : String} {operations : List Operation}
    {s : Script} (h : compile create lang operations = .ok s) :
    ∃ edits, operations.mapM Operation.resolve = .ok edits ∧
      (∀ e ∈ emissions create edits,
        Catalog.Script.normalize e.statement.text = e.statement.text) ∧
      compileBy (fun e => e.statement.text) create lang operations = .ok s := by
  obtain ⟨edits, hedits, -⟩ := compile_eq_ok h
  have hr : ∀ edit ∈ edits, edit.Resolved := fun _ => Operation.resolved_of_mapM hedits
  refine ⟨edits, hedits, fun e he => line_of_mem_emissions hr he, ?_⟩
  rw [compileBy_text, h]

theorem normalize_text_of_compile_accessor_key :
    ∃ s, compile false defaultLang [.ofAdd "/a'\\ctx._source.b:c" .null] = .ok s ∧
      s.source = "ctx._source['a\\'\\\\ctx._source.b:c'] = params.a__ctx__source_b_c_0;" := by
  obtain ⟨s, hs⟩ : ∃ s, compile false defaultLang
      [.ofAdd "/a'\\ctx._source.b:c" .null] = .ok s := ⟨_, rfl⟩
  obtain ⟨-, -, -, hplain⟩ := normalize_text_of_compile hs
  have hsource : (compileBy (fun e => e.statement.text) false defaultLang
      [.ofAdd "/a'\\ctx._source.b:c" .null]).toOption.map (fun s => s.source) =
        some "ctx._source['a\\'\\\\ctx._source.b:c'] = params.a__ctx__source_b_c_0;" := by rfl
  rw [hplain, Except.toOption, Option.map_some, Option.some.injEq] at hsource
  exact ⟨s, hs, hsource⟩

end Catalog.Patch
