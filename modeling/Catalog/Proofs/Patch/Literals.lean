import Catalog.Proofs.Patch.Unmended
import Catalog.Proofs.Script.Scan

/-!
# Pointer text stays in literals

The keys of pointers are arbitrary texts, and they are quoted once as keys and once more inside the
reasons of guards. A scan of a line that knows nothing of the grammar still finds every literal
closed, and each literal holds a whole key, a position, or a reason. Code is written with code
characters: what stands there of a pointer is a key that is an identifier, behind a point, and the
sanitized name of a parameter or a binding.
-/

namespace Catalog.Patch

open Catalog.Script

/-- The atom can be told from a pointer of one of the operations. -/
def Mentioned (operations : List Operation) (a : Atom) : Prop :=
  ∃ o ∈ operations, ∃ p, o.Names p ∧ Mentions p a

/-- The statements of operations are written with atoms of their pointers. -/
theorem mentioned_of_mem_emissions {create : Bool} {operations : List Operation}
    {edits : List Edit} (hedits : operations.mapM Operation.resolve = .ok edits) {e : Emission}
    (he : e ∈ emissions create edits) {a : Atom} (ha : a ∈ e.statement.atoms) :
    Mentioned operations a := by
  obtain ⟨⟨edit, index⟩, hm, he⟩ := List.mem_flatMap.1 he
  obtain ⟨o, ho, hedit⟩ := Outcome.exists_of_mem_mapM hedits (List.fst_mem_of_mem_zipIdx hm)
  obtain ⟨p, hp, hmentions⟩ := (Operation.resolve_eq_ok hedit).1.exists_mentions he ha
  exact ⟨o, ho, p, Operation.names_of_resolve hedit p hp, hmentions⟩

/-- Scanning a line of a script finds every literal closed. Each literal is a whole key or a position
of a pointer, or belongs to the reason of a guard or an assertion, and everything else is written
with code characters. The line is the text of a statement whose literals these are. Its other atoms
are keys that are identifiers, behind a point, and names of parameters and bindings. -/
theorem scan_of_compile {create : Bool} {lang : String} {operations : List Operation} {s : Script}
    (h : compile create lang operations = .ok s) {line : String} (hline : line ∈ s.instructions) :
    ∃ pieces, scan line.toList = some pieces ∧
      (∀ t, .literal t ∈ pieces → Mentioned operations (.literal t)) ∧
      (∀ c, .code c ∈ pieces → Token.isCodeChar c = true) ∧
      ∃ statement : Statement, line = statement.text ∧
        (∀ t, .literal t ∈ pieces ↔ .literal t ∈ statement.atoms) ∧
        ∀ a ∈ statement.atoms, Mentioned operations a := by
  obtain ⟨edits, hedits, hr, hlines, -⟩ := instructions_of_compile h
  rw [hlines] at hline
  obtain ⟨e, he, rfl⟩ := List.mem_map.1 hline
  have hmem : e ∈ emissions create edits := (withoutRepeats_sublist _ _).subset he
  have hatoms : ∀ a ∈ e.statement.atoms, Mentioned operations a :=
    fun a ha => mentioned_of_mem_emissions hedits hmem ha
  obtain ⟨pieces, hscan, hliterals, hcode⟩ := (wellWritten_emissions hr hmem).scan_text
  rw [line_of_mem_emissions hr hmem]
  refine ⟨pieces, hscan, fun t ht => hatoms _ ((hliterals t).1 ht), hcode, e.statement, rfl,
    hliterals, hatoms⟩

theorem scan_of_compile_quoted_key :
    ∃ s, compile false defaultLang [.ofAdd "/a'\\" .null] = .ok s ∧
      s.instructions = ["ctx._source['a\\'\\\\'] = params.a___0;"] ∧
      Mentioned [.ofAdd "/a'\\" .null] (.literal "a'\\") := by
  obtain ⟨s, hs⟩ : ∃ s, compile false defaultLang [.ofAdd "/a'\\" .null] = .ok s := ⟨_, rfl⟩
  have hlines : (compileBy (fun e => e.statement.text) false defaultLang
      [.ofAdd "/a'\\" .null]).toOption.map Script.instructions =
        some ["ctx._source['a\\'\\\\'] = params.a___0;"] := by rfl
  rw [compileBy_text, hs, Except.toOption, Option.map_some, Option.some.injEq] at hlines
  have hline : "ctx._source['a\\'\\\\'] = params.a___0;" ∈ s.instructions :=
    hlines ▸ List.mem_singleton_self _
  obtain ⟨pieces, hscan, hliterals, -⟩ := scan_of_compile hs hline
  have hquoted : (scan "ctx._source['a\\'\\\\'] = params.a___0;".toList).map
      (fun pieces => decide (Piece.literal "a'\\" ∈ pieces)) = some true := by rfl
  rw [hscan, Option.map_some, Option.some.injEq, decide_eq_true_iff] at hquoted
  exact ⟨s, hs, hlines, hliterals _ hquoted⟩

end Catalog.Patch
