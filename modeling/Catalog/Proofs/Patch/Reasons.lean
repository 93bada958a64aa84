import Catalog.Proofs.Patch.Secured
import Catalog.Proofs.Script.Scan
import Catalog.Proofs.Text.Blank

/-!
# Reading reasons back

A script that aborts gives a reason which names a pointer, and a failure is read back from it. The
reason of a guard ends with its pointer, so what is read back is the pointer without the blanks at
its end. The reason of a test goes on behind the pointer, and it is split at its first colon with a
space behind it, which may stand inside the pointer. So a pointer is recovered from the reason of a
guard exactly when it does not end in a blank, and from that of a test exactly when it holds no
colon with a space behind it.
-/

namespace Catalog.Patch

open Catalog.Script Segment

namespace Failure

/-- What a guard tells of a pointer that leads nowhere. -/
def missingReason (pointer : String) : String := missingOpening ++ pointer

/-- What a failed test says of the values behind its pointer. -/
def assertionDetail (expected found : String) : String :=
  "expected " ++ expected ++ " but found " ++ found

/-- What a failed test tells. -/
def assertionReason (pointer expected found : String) : String :=
  assertionOpening ++ pointer ++ ": " ++ assertionDetail expected found

/-- There is a colon with a space behind it. -/
def HoldsColon (cs : List Char) : Prop := [':', ' '] <:+: cs

instance (cs : List Char) : Decidable (HoldsColon cs) :=
  inferInstanceAs (Decidable ([':', ' '] <:+: cs))

theorem holdsColon_cons (c : Char) (cs : List Char) :
    HoldsColon (c :: cs) ↔ (c = ':' ∧ ∃ rest, cs = ' ' :: rest) ∨ HoldsColon cs := by
  rw [HoldsColon, List.infix_cons_iff, ← HoldsColon, List.cons_prefix_cons]
  refine or_congr_left (and_congr eq_comm ?_)
  cases cs with
  | nil => simp
  | cons d cs => simp [List.cons_prefix_cons, eq_comm]

/-- A text is split behind what holds no separator, since none can start at its end. -/
theorem splitColon_append {cs : List Char} (h : ¬HoldsColon cs) (rest : List Char) :
    splitColon (cs ++ ':' :: ' ' :: rest) = (cs, rest) := by
  induction cs with
  | nil => rfl
  | cons c cs ih =>
    rw [holdsColon_cons, not_or] at h
    obtain ⟨hhead, hcs⟩ := h
    -- Behind the last character there stands a colon, and no space.
    have hfirst : ¬(c = ':' ∧ ∃ more, cs ++ ':' :: ' ' :: rest = ' ' :: more) := by
      rintro ⟨rfl, more, hmore⟩
      cases cs with
      | nil => simp at hmore
      | cons d cs => exact hhead ⟨rfl, cs, by rw [(List.cons.inj hmore).1]⟩
    rw [List.cons_append, splitColon.eq_3 _ _ fun more hc hmore => hfirst ⟨hc, more, hmore⟩, ih hcs]

/-- Where a text holds a separator, the two parts put together around one are the text. -/
theorem append_splitColon {cs : List Char} (h : HoldsColon cs) :
    (splitColon cs).1 ++ ':' :: ' ' :: (splitColon cs).2 = cs := by
  fun_induction splitColon cs with
  | case1 => simp [HoldsColon] at h
  | case2 rest => rfl
  | case3 c rest hhead before after hsplit ih =>
    rcases (holdsColon_cons c rest).1 h with ⟨rfl, more, rfl⟩ | hrest
    · exact absurd rfl (hhead more rfl)
    · have hwhole := ih hrest
      rw [hsplit] at hwhole
      rw [List.cons_append, hwhole]

/-- The first part starts like the text, unless it is empty. -/
theorem head_of_splitColon {cs more : List Char} {c : Char} (h : (splitColon cs).1 = c :: more) :
    ∃ rest, cs = c :: rest := by
  fun_cases splitColon cs with
  | case1 => simp [splitColon] at h
  | case2 rest => simp [splitColon] at h
  | case3 d rest hhead before after hsplit =>
    rw [splitColon.eq_3 _ _ hhead] at h
    exact ⟨rest, by rw [(List.cons.inj h).1]⟩

/-- The first part holds no separator. -/
theorem not_holdsColon_splitColon (cs : List Char) : ¬HoldsColon (splitColon cs).1 := by
  fun_induction splitColon cs with
  | case1 => simp [HoldsColon]
  | case2 rest => simp [HoldsColon]
  | case3 c rest hhead before after hsplit ih =>
    rw [hsplit] at ih
    rw [holdsColon_cons]
    rintro (⟨rfl, more, hmore⟩ | hbefore)
    -- A separator at the very start would have left the first part empty.
    · have hfirst : (splitColon rest).1 = ' ' :: more := by rw [hsplit, ← hmore]
      obtain ⟨tail, rfl⟩ := head_of_splitColon hfirst
      exact hhead tail rfl rfl
    · exact ih hbefore

/-- The two openings differ in their first character. -/
theorem afterOpening?_assertion (rest : List Char) :
    afterOpening? missingOpening.toList (assertionOpening.toList ++ rest) = none := by
  rw [afterOpening?, if_neg]
  intro h
  have hhead := congrArg List.head? h
  simp [missingOpening, assertionOpening] at hhead

theorem afterOpening?_append (opening rest : List Char) :
    afterOpening? opening (opening ++ rest) = some rest := by
  simp [afterOpening?]

/-- The reason of a guard is read back without the blanks at the end of its pointer. -/
theorem ofReason?_missing {pointer : String} {cs : List Char} (h : pointer.toList = '/' :: cs) :
    ofReason? (missingReason pointer) =
      some (.missing (String.ofList (Text.trimEnd pointer.toList))) := by
  have hslash : ∃ c ∈ pointer.toList, Text.isBlank c = false :=
    ⟨'/', by rw [h]; exact List.mem_cons_self, rfl⟩
  have htrim : Text.trimChars (missingReason pointer).toList =
      missingOpening.toList ++ Text.trimEnd pointer.toList := by
    rw [missingReason, String.toList_append, ← Text.trimEnd_append hslash]
    exact Text.trimChars_cons rfl _
  simp only [ofReason?, htrim, afterOpening?_append]

/-- It is the pointer exactly when that one does not end in a blank. -/
theorem ofReason?_missing_iff {pointer : String} {cs : List Char}
    (h : pointer.toList = '/' :: cs) :
    ofReason? (missingReason pointer) = some (.missing pointer) ↔
      ¬Text.EndsBlank pointer.toList := by
  rw [ofReason?_missing h, Option.some.injEq, Failure.missing.injEq, ← String.toList_inj,
    String.toList_ofList, Text.trimEnd_eq_self_iff]

/-- What the reason of a test tells behind its opening. -/
def assertionBody (pointer expected found : String) : List Char :=
  pointer.toList ++ ':' :: ' ' :: (assertionDetail expected found).toList

theorem toList_assertionReason (pointer expected found : String) :
    (assertionReason pointer expected found).toList =
      assertionOpening.toList ++ assertionBody pointer expected found := by
  simp [assertionReason, assertionBody, String.toList_append]

/-- The reason of a test is split behind its opening. -/
theorem ofReason?_assertion {found : String} (hne : found ≠ "") (htrim : Text.trim found = found)
    (pointer expected : String) :
    ofReason? (assertionReason pointer expected found) =
      some (.assertion (String.ofList (splitColon (assertionBody pointer expected found)).1)
        (String.ofList (splitColon (assertionBody pointer expected found)).2)) := by
  have hlast : ¬Text.EndsBlank (assertionReason pointer expected found).toList := by
    have hfound : found.toList ≠ [] := by simpa using hne
    have hend : (assertionReason pointer expected found).toList.getLast? =
        found.toList.getLast? := by
      simp only [assertionReason, assertionDetail, String.toList_append]
      rw [← List.append_assoc, List.getLast?_append_of_ne_nil _ hfound]
    rw [Text.EndsBlank, hend]
    exact Text.not_endsBlank_of_trim htrim
  have hkept : Text.trimChars (assertionReason pointer expected found).toList =
      assertionOpening.toList ++ assertionBody pointer expected found := by
    rw [← Text.trimEnd_eq_self_iff, toList_assertionReason] at hlast
    rw [toList_assertionReason]
    exact (Text.trimChars_cons rfl _).trans hlast
  simp only [ofReason?, hkept, afterOpening?_assertion, afterOpening?_append, Option.map_some]

/-- Nothing but a separator gets lost between the pointer and the detail that are read back, and the
pointer that is read back holds none. -/
theorem exists_ofReason?_assertion {found : String} (hne : found ≠ "")
    (htrim : Text.trim found = found) (pointer expected : String) :
    ∃ path detail, ofReason? (assertionReason pointer expected found) =
        some (.assertion path detail) ∧
      path ++ ": " ++ detail = pointer ++ ": " ++ assertionDetail expected found ∧
        ¬HoldsColon path.toList := by
  refine ⟨_, _, ofReason?_assertion hne htrim pointer expected, ?_, ?_⟩
  · have hholds : HoldsColon (assertionBody pointer expected found) :=
      ⟨pointer.toList, (assertionDetail expected found).toList, by simp [assertionBody]⟩
    have hwhole := append_splitColon hholds
    rw [assertionBody] at hwhole
    rw [← String.toList_inj]
    simpa [String.toList_append, assertionBody] using hwhole
  · rw [String.toList_ofList]
    exact not_holdsColon_splitColon _

/-- It is the pointer exactly when that one holds no separator. -/
theorem ofReason?_assertion_iff {found : String} (hne : found ≠ "")
    (htrim : Text.trim found = found) (pointer expected : String) :
    ofReason? (assertionReason pointer expected found) =
        some (.assertion pointer (assertionDetail expected found)) ↔
      ¬HoldsColon pointer.toList := by
  constructor
  · intro h
    obtain ⟨path, detail, hread, -, hpath⟩ :=
      exists_ofReason?_assertion hne htrim pointer expected
    rw [h, Option.some.injEq, Failure.assertion.injEq] at hread
    rwa [hread.1]
  · intro h
    rw [ofReason?_assertion hne htrim, assertionBody, splitColon_append h, String.ofList_toList,
      String.ofList_toList]

end Failure

/-- A scan of the line ends with a call that gives the reason. -/
def GivesReason (line reason : String) : Prop :=
  ∃ front, scan line.toList = some (front ++ ("Debug.explain(".toList.map Piece.code ++
    .literal reason :: "); \x7d".toList.map Piece.code))

namespace Emission

variable {p : Pointer} {e : Emission}

/-- The guard makes a container that is missing. -/
def IsCreation (e : Emission) : Prop := ∃ container name, e = creation container name

/-- The guard tests where a segment of the pointer leads, and gives up naming the pointer up to this
segment. -/
def Tests (e : Emission) (p : Pointer) (tested : String) : Prop :=
  ∃ above s, above ++ [s] <+: p.segments ∧ IsAbout above s e ∧ tested = pointerText (above ++ [s])

theorem Tests.exists_demand {tested : String} (h : e.Tests p tested) :
    ∃ condition, e = demand condition tested := by
  obtain ⟨above, s, -, habout, rfl⟩ := h
  cases habout with
  | presence => exact ⟨_, rfl⟩
  | insertable => exact ⟨_, rfl⟩

/-- The text of a pointer or a part of it starts with a slash. -/
theorem Tests.toList_eq {tested : String} (h : e.Tests p tested) :
    ∃ cs, tested.toList = '/' :: cs := by
  obtain ⟨above, s, -, -, rfl⟩ := h
  rw [pointerText, String.toList_ofList, pointerChars]
  cases above with
  | nil => exact ⟨_, rfl⟩
  | cons u above => exact ⟨_, rfl⟩

/-- A guard of the containers of a pointer makes one of them or tests it. -/
theorem creation_or_tests_of_mem_ancestors (hp : p.Resolved) {create : Bool}
    (he : e ∈ ancestors p create) : e.IsCreation ∨ ∃ tested, e.Tests p tested := by
  obtain ⟨⟨s, depth⟩, hmem, he⟩ := List.mem_map.1 he
  have hs : p.parents[depth]? = some s := List.mem_zipIdx_iff_getElem?.1 hmem
  have hpart : p.parents.take depth ++ [s] <+: p.segments := by
    have htake : p.parents.take (depth + 1) = p.parents.take depth ++ [s] := by
      rw [List.take_add_one, hs, Option.toList_some]
    exact htake ▸ (List.take_prefix _ _).trans (List.prefix_append _ _)
  have hsecures : Secures (p.parents.take depth) s e := he ▸ secures_ancestor hp create hs
  cases hsecures with
  | presence => exact .inr ⟨_, _, _, hpart, .presence, rfl⟩
  | creation name => exact .inl ⟨_, _, rfl⟩

/-- The guard that is about a whole pointer tests it. -/
theorem tests_of_isAbout (h : IsAbout p.parents p.key e) : ∃ tested, e.Tests p tested :=
  ⟨_, p.parents, p.key, List.prefix_refl _, h, rfl⟩

theorem creation_or_tests_of_mem_existing (hp : p.Resolved) (he : e ∈ existing p) :
    e.IsCreation ∨ ∃ tested, e.Tests p tested := by
  rcases List.mem_append.1 he with he | he
  · exact creation_or_tests_of_mem_ancestors hp he
  · rw [List.mem_singleton.1 he, hp.text_eq]
    exact .inr (tests_of_isAbout .presence)

theorem creation_or_tests_of_mem_insertable (hp : p.Resolved) {create : Bool}
    (he : e ∈ insertable p create) : e.IsCreation ∨ ∃ tested, e.Tests p tested := by
  rcases List.mem_append.1 he with he | he
  · exact creation_or_tests_of_mem_ancestors hp he
  · split at he
    · rw [List.mem_singleton.1 he, hp.text_eq]
      exact .inr (tests_of_isAbout .insertable)
    · simp at he

/-- The line of a guard that tests a pointer gives up with its reason. -/
theorem Tests.givesReason {tested : String} (h : e.Tests p tested)
    (hw : e.statement.WellWritten) :
    GivesReason e.statement.text (Failure.missingReason tested) := by
  obtain ⟨condition, rfl⟩ := h.exists_demand
  refine ⟨piecesOf (.code "if (" :: (Expr.not condition).tokens ++ [.code ") \x7b "]), ?_⟩
  rw [← Statement.charsOf_tokens, scan_charsOf hw.regular]
  simp [demand, Statement.tokens, Expr.tokens, piecesOf, Token.pieces, Failure.missingReason]

end Emission

/-- The guards of an edit make containers, or they test its pointers. -/
theorem Edit.Resolved.creation_or_tests {edit : Edit} (hr : edit.Resolved) {create : Bool}
    {e : Emission} (he : e ∈ edit.guards create) :
    e.IsCreation ∨ ∃ p ∈ edit.pointers, ∃ tested, e.Tests p tested := by
  have hexisting {p : Pointer} (hp : p ∈ edit.pointers) (he : e ∈ Emission.existing p) :
      e.IsCreation ∨ ∃ p ∈ edit.pointers, ∃ tested, e.Tests p tested :=
    (Emission.creation_or_tests_of_mem_existing (hr.pointers p hp) he).imp_right fun h => ⟨p, hp, h⟩
  have hinsertable {p : Pointer} (hp : p ∈ edit.pointers) {create : Bool}
      (he : e ∈ Emission.insertable p create) :
      e.IsCreation ∨ ∃ p ∈ edit.pointers, ∃ tested, e.Tests p tested :=
    (Emission.creation_or_tests_of_mem_insertable (hr.pointers p hp) he).imp_right
      fun h => ⟨p, hp, h⟩
  cases edit with
  | add p v => exact hinsertable (List.mem_singleton_self p) he
  | replace p v => exact hexisting (List.mem_singleton_self p) he
  | remove p => exact hexisting (List.mem_singleton_self p) he
  | test p v => exact hexisting (List.mem_singleton_self p) he
  | copy source p =>
    exact (List.mem_append.1 he).elim (hexisting (List.mem_cons_self ..))
      (hinsertable (List.mem_cons_of_mem source (List.mem_singleton_self p)))
  | move source p =>
    exact (List.mem_append.1 he).elim (hexisting (List.mem_cons_self ..))
      (hinsertable (List.mem_cons_of_mem source (List.mem_singleton_self p)))

/-- The expression of the reason that a test gives. -/
def testReason (p : Pointer) (expected : Expr) : Expr :=
  .plus (.plus (.plus (.quoted (Failure.assertionOpening ++ p.text ++ ": expected ")) expected)
    (.quoted " but found ")) p.accessor

theorem assertion_eq (p : Pointer) (expected : Expr) :
    assertion p expected =
      .when (.differs p.accessor expected) (.explain (testReason p expected)) := rfl

/-- In a dialect that shows texts as they are, the reason of a test tells of its pointer and of the
values on both sides, as they are shown. -/
theorem eval_testReason {d : Dialect} (hd : ∀ t, d.display (.text t) = t) {σ : State}
    {p : Pointer} {expected : Expr} {x y : Json} (hx : expected.eval d σ = some x)
    (hy : p.accessor.eval d σ = some y) :
    (testReason p expected).eval d σ =
      some (.text (Failure.assertionReason p.text (d.display x) (d.display y))) := by
  simp [testReason, Expr.eval, hx, hy, hd, Failure.assertionReason, Failure.assertionDetail,
    ← String.toList_inj, String.toList_append]

/-- The statements of an edit are among those of all edits, and the test of one is always kept. -/
theorem assertion_mem_kept (create : Bool) {edits : List Edit} {i : Nat} {p : Pointer} {v : Json}
    (hi : edits[i]? = some (.test p v)) :
    ⟨.effect, assertion p (.param (Edit.localName p i))⟩ ∈
      withoutRepeats [] (emissions create edits) := by
  refine mem_withoutRepeats_of_role [] ?_ (by simp)
  refine List.mem_flatMap.2 ⟨(.test p v, i), List.mem_zipIdx_iff_getElem?.2 hi, ?_⟩
  exact List.mem_append_right _ (List.mem_singleton_self _)

/-- The guard tests a part of the pointer, and its line gives a reason which names this part. What
is read back from the reason is the part without the blanks at its end. -/
structure ReadsBackGuard (e : Emission) (p : Pointer) (tested : String) : Prop where
  tests : e.Tests p tested
  gives : GivesReason e.line (Failure.missingReason tested)
  read : Failure.ofReason? (Failure.missingReason tested) =
    some (.missing (String.ofList (Text.trimEnd tested.toList)))
  exact_iff : Failure.ofReason? (Failure.missingReason tested) = some (.missing tested) ↔
    ¬Text.EndsBlank tested.toList

/-- The test of a pointer gives a reason which tells of the pointer and of both values, whatever
they are shown as. What is read back from the reason is split at its first colon with a space behind
it, so it is the pointer and the values exactly when the pointer holds none. -/
structure ReadsBackTest (p : Pointer) (expected : Expr) : Prop where
  tells : ∀ (d : Dialect) (σ : State) (x y : Json), (∀ t, d.display (.text t) = t) →
    expected.eval d σ = some x → p.accessor.eval d σ = some y →
      (testReason p expected).eval d σ =
        some (.text (Failure.assertionReason p.text (d.display x) (d.display y)))
  read : ∀ shown found, found ≠ "" → Text.trim found = found →
    ∃ path detail,
      Failure.ofReason? (Failure.assertionReason p.text shown found) =
        some (.assertion path detail) ∧
      path ++ ": " ++ detail = p.text ++ ": " ++ Failure.assertionDetail shown found ∧
        ¬Failure.HoldsColon path.toList
  exact_iff : ∀ shown found, found ≠ "" → Text.trim found = found →
    (Failure.ofReason? (Failure.assertionReason p.text shown found) =
      some (.assertion p.text (Failure.assertionDetail shown found)) ↔
        ¬Failure.HoldsColon p.text.toList)

theorem readsBackGuard {e : Emission} {p : Pointer} {tested : String} (h : e.Tests p tested)
    (hw : e.statement.WellWritten) (hline : e.line = e.statement.text) :
    ReadsBackGuard e p tested := by
  obtain ⟨cs, hslash⟩ := h.toList_eq
  exact ⟨h, hline ▸ h.givesReason hw, Failure.ofReason?_missing hslash,
    Failure.ofReason?_missing_iff hslash⟩

theorem readsBackTest (p : Pointer) (expected : Expr) : ReadsBackTest p expected where
  tells _ _ _ _ hd hx hy := eval_testReason hd hx hy
  read shown _ hne htrim := Failure.exists_ofReason?_assertion hne htrim p.text shown
  exact_iff shown _ hne htrim := Failure.ofReason?_assertion_iff hne htrim p.text shown

/-- Every guard of a script that makes no container tests a pointer of one of the operations, and
the part of the pointer that it tests is read back from its reason. Every test is among the
statements of the script, and its pointer and values are read back from its reason. Both are exact
but for blanks at the end of the pointer of a guard, and for a colon with a space behind it in the
pointer of a test. -/
theorem reasons_of_compile {create : Bool} {lang : String} {operations : List Operation}
    {s : Script} (h : compile create lang operations = .ok s) :
    ∃ edits, operations.mapM Operation.resolve = .ok edits ∧
      s.instructions = (withoutRepeats [] (emissions create edits)).map Emission.line ∧
      (∀ e ∈ withoutRepeats [] (emissions create edits), e.role = .guard → ¬e.IsCreation →
        ∃ edit ∈ edits, ∃ p ∈ edit.pointers, ∃ tested, ReadsBackGuard e p tested) ∧
      ∀ i p v, edits[i]? = some (.test p v) →
        (∃ e ∈ withoutRepeats [] (emissions create edits),
          e.statement = .when (.differs p.accessor (.param (Edit.localName p i)))
            (.explain (testReason p (.param (Edit.localName p i))))) ∧
          ReadsBackTest p (.param (Edit.localName p i)) := by
  obtain ⟨edits, hedits, hr, hlines, -⟩ := instructions_of_compile h
  refine ⟨edits, hedits, hlines, fun e he hrole hcreation => ?_, fun i p v hi => ⟨?_, ?_⟩⟩
  · have hmem : e ∈ emissions create edits := (withoutRepeats_sublist _ _).subset he
    obtain ⟨⟨edit, index⟩, hedit, hemission⟩ := List.mem_flatMap.1 hmem
    replace hedit : edit ∈ edits := List.fst_mem_of_mem_zipIdx hedit
    replace hemission : e ∈ edit.guards create ++ edit.effects index :=
      edit.emissions_eq create index ▸ hemission
    rcases List.mem_append.1 hemission with hguard | heffect
    · obtain ⟨p, hp, tested, htests⟩ :=
        ((hr edit hedit).creation_or_tests hguard).resolve_left hcreation
      exact ⟨edit, hedit, p, hp, tested, readsBackGuard htests (wellWritten_emissions hr hmem)
        (line_of_mem_emissions hr hmem)⟩
    · exact absurd hrole (Edit.role_of_mem_effects heffect)
  · exact ⟨_, assertion_mem_kept create hi, assertion_eq p _⟩
  · exact readsBackTest p _

/-- The pointer of a test ends in a blank, which the guard loses and the test keeps. -/
theorem reasons_of_compile_test :
    ∃ s, compile false defaultLang [.ofTest "/a " .null] = .ok s ∧
      (∃ line ∈ s.instructions, GivesReason line (Failure.missingReason "/a ")) ∧
      Failure.ofReason? (Failure.missingReason "/a ") = some (.missing "/a") ∧
      Failure.ofReason? (Failure.assertionReason "/a " "1" "2") =
        some (.assertion "/a " (Failure.assertionDetail "1" "2")) := by
  let p : Pointer := ⟨"/a ", [], .key "a "⟩
  obtain ⟨s, hs⟩ : ∃ s, compile false defaultLang [.ofTest "/a " .null] = .ok s := ⟨_, rfl⟩
  obtain ⟨edits, hedits, hlines, hguards, htests⟩ := reasons_of_compile hs
  obtain rfl : [.test p .null] = edits := Except.ok.inj hedits
  have hmem : Emission.presence .source (.key "a ") "/a " ∈
      withoutRepeats [] (emissions false [.test p .null]) :=
    List.mem_cons_self
  have hcreation : ¬(Emission.presence .source (.key "a ") "/a ").IsCreation := by
    rintro ⟨container, name, h⟩
    cases h
  obtain ⟨edit, -, q, -, tested, hguard⟩ := hguards _ hmem rfl hcreation
  obtain rfl : "/a " = tested := by
    obtain ⟨condition, hdemand⟩ := hguard.tests.exists_demand
    simp only [Emission.presence, Emission.demand, Emission.mk.injEq, Statement.when.injEq,
      Statement.explain.injEq, Expr.quoted.injEq] at hdemand
    have hreason := congrArg String.toList hdemand.2.2
    rw [String.toList_append, String.toList_append, List.append_cancel_left_eq] at hreason
    exact String.toList_inj.1 hreason
  obtain ⟨-, htest⟩ := htests 0 p .null rfl
  refine ⟨s, hs, ⟨_, hlines ▸ List.mem_map_of_mem hmem, hguard.gives⟩, hguard.read, ?_⟩
  exact (htest.exact_iff "1" "2" (by decide) rfl).2 (by decide)

/-- What is read back from the reasons of a script would be the pointers that they are about. -/
def RecoversPointers : Prop :=
  ∀ (create : Bool) (lang : String) (operations : List Operation) (s : Script)
    (edits : List Edit), compile create lang operations = .ok s →
      operations.mapM Operation.resolve = .ok edits →
        (∀ e ∈ withoutRepeats [] (emissions create edits), ∀ p tested, e.Tests p tested →
          Failure.ofReason? (Failure.missingReason tested) = some (.missing tested)) ∧
        ∀ p v, .test p v ∈ edits → ∀ expected found, expected ≠ "" → found ≠ "" →
          Text.trim expected = expected → Text.trim found = found →
            Failure.ofReason? (Failure.assertionReason p.text expected found) =
              some (.assertion p.text (Failure.assertionDetail expected found))

/-- The pointer of a test holds a colon with a space behind it, and what is read back ends there. -/
theorem not_recoversPointers : ¬RecoversPointers := by
  intro h
  let p : Pointer := ⟨"/a: b", [], .key "a: b"⟩
  obtain ⟨s, hs⟩ : ∃ s, compile false defaultLang [.ofTest "/a: b" .null] = .ok s := ⟨_, rfl⟩
  have hedits : [Operation.ofTest "/a: b" .null].mapM Operation.resolve = .ok [.test p .null] := rfl
  obtain ⟨-, htests⟩ := h _ _ _ s _ hs hedits
  have hread := htests p .null (List.mem_singleton_self _) "1" "2" (by decide) (by decide) rfl rfl
  have hactual : Failure.ofReason? (Failure.assertionReason p.text "1" "2") =
      some (.assertion "/a" "b: expected 1 but found 2") := by decide +kernel
  rw [hactual] at hread
  exact absurd hread (by decide)

end Catalog.Patch
