import Catalog.Pointer.Basic
import Catalog.Proofs.Outcome
import Catalog.Proofs.Text.Lines
import Catalog.Proofs.Text.Separated

/-!
# Resolved pointers

Reading a pointer loses nothing: its text is the text of its segments, each behind a slash, and each
segment is the reading of its own text. The text of the first segments is therefore the text up to
the slash behind them, and two resolved pointers with the same text there agree in these segments.
-/

namespace Catalog

namespace Segment

/-- The characters of a pointer with these segments. -/
def pointerChars (ss : List Segment) : List Char :=
  ss.flatMap fun s => '/' :: Pointer.escapeChars s.text.toList

/-- The text of a pointer with these segments. -/
def pointerText (ss : List Segment) : String := String.ofList (pointerChars ss)

/-- The segment is what its text is read as. -/
def IsRead (s : Segment) : Prop := ofText s.text = s

instance (s : Segment) : Decidable s.IsRead := inferInstanceAs (Decidable (ofText s.text = s))

theorem isRead_ofText (s : String) : (ofText s).IsRead := by rw [IsRead, text_ofText]

/-- A distance that was read is positive. -/
theorem IsRead.distance_pos {n : Nat} (h : (fromEnd n).IsRead) : 0 < n := by
  unfold IsRead ofText distance? at h
  split at h
  · simp at h
  · split at h
    · next m hm =>
      obtain rfl : m = n := by simpa using h
      split at hm
      · exact of_decide_eq_true (Option.filter_eq_some_iff.1 hm).2
      · simp at hm
    · split at h
      · simp at h
      · simp at h

end Segment

namespace Pointer

open Segment

theorem slash_notMem_escapeChars (cs : List Char) : '/' ∉ escapeChars cs := by
  fun_induction escapeChars cs with
  | case1 => simp
  | case2 rest ih => simp [ih]
  | case3 rest ih => simp [ih]
  | case4 c rest hs ht ih =>
    rw [List.mem_cons, not_or]
    exact ⟨fun h => ht h.symm, ih⟩

/-- Pieces with slashes between them: every piece but the first follows a slash. -/
theorem intercalate_slash (first : List Char) (rest : List (List Char)) :
    ['/'].intercalate (first :: rest) = first ++ rest.flatMap ('/' :: ·) := by
  induction rest generalizing first with
  | nil => simp
  | cons second rest ih =>
    rw [List.intercalate_cons_cons, ih second, List.flatMap_cons]
    simp

/-- The characters of a piece and the segment that it is read as. -/
theorem readPiece_eq_ok {piece : List Char} {s : Segment} (hs : '/' ∉ piece)
    (h : (do return Segment.ofText (← unescape (String.ofList piece)) : Except CompileError Segment)
      = .ok s) : piece = escapeChars s.text.toList ∧ s.IsRead := by
  obtain ⟨t, ht, hst⟩ := Outcome.bind_eq_ok_iff.1 h
  cases hst
  unfold unescape at ht
  rw [String.toList_ofList] at ht
  split at ht
  · next cs hcs =>
    cases ht
    refine ⟨?_, isRead_ofText _⟩
    rw [text_ofText, String.toList_ofList]
    exact eq_escapeChars_of_unescapeChars? hs hcs
  · simp at ht

/-- The segments of a pointer text make up the text again. -/
theorem readSegments_eq_ok {body : List Char} {ss : List Segment}
    (h : readSegments body = .ok ss) :
    '/' :: body = pointerChars ss ∧ ss ≠ [] ∧ ∀ s ∈ ss, s.IsRead := by
  have hall := Outcome.mapM_eq_ok_iff.1 h
  have hslash : ∀ piece ∈ body.splitOn '/', '/' ∉ piece := fun _ => Text.notMem_of_mem_splitOn
  obtain ⟨first, rest, hpieces⟩ := List.exists_cons_of_ne_nil (List.splitOn_ne_nil '/' body)
  refine ⟨?_, ?_, ?_⟩
  · have hbody : '/' :: body = (body.splitOn '/').flatMap ('/' :: ·) := by
      have hjoin : ['/'].intercalate (body.splitOn '/') = body := List.intercalate_splitOn '/'
      conv => lhs; rw [← hjoin, hpieces, intercalate_slash]
      rw [hpieces, List.flatMap_cons, List.cons_append]
    rw [hbody]
    clear hbody hpieces h
    generalize body.splitOn '/' = pieces at hall hslash
    induction hall with
    | nil => rfl
    | cons hp hrest ih =>
      rw [List.flatMap_cons, (readPiece_eq_ok (hslash _ (List.mem_cons_self ..)) hp).1,
        ih fun piece hm => hslash piece (List.mem_cons_of_mem _ hm)]
      rfl
  · rintro rfl
    rw [hpieces] at hall
    cases hall
  · intro s hs
    obtain ⟨piece, hpiece, hr⟩ := Outcome.exists_of_mem_mapM h hs
    exact (readPiece_eq_ok (Text.notMem_of_mem_splitOn hpiece) hr).2

/-- What resolving a text promises about the pointer. -/
structure Resolved (p : Pointer) : Prop where
  /-- The text is the text of the segments. -/
  text_eq : p.text = pointerText p.segments
  isRead : ∀ s ∈ p.segments, s.IsRead
  /-- No segment that leads to the container is the end of a list. -/
  append_notMem : Segment.append ∉ p.parents
  singleLine : Text.SingleLine p.text

/-- No segment is the end of a list when the key is none. -/
theorem Resolved.ne_append {p : Pointer} (h : p.Resolved) (hk : p.key ≠ .append) {s : Segment}
    (hs : s ∈ p.segments) : s ≠ .append := by
  rintro rfl
  rcases List.mem_append.1 hs with hs | hs
  · exact h.append_notMem hs
  · exact hk (List.mem_singleton.1 hs).symm

/-- The segments of a list that is not empty are its containers and its key. -/
theorem segments_mk {ss : List Segment} (h : ss ≠ []) (text : String) :
    (Pointer.mk text ss.dropLast (ss.getLast?.getD .append)).segments = ss := by
  rw [segments, List.getLast?_eq_getLast_of_ne_nil h, Option.getD_some,
    List.dropLast_append_getLast h]

/-- A pointer that a text resolves to keeps the text and the promises of resolving. -/
theorem resolve_eq_ok {text : String} {p : Pointer} (h : resolve text = .ok p) :
    p.text = text ∧ p.Resolved := by
  unfold resolve at h
  split at h
  · next body hbody =>
    split at h
    · simp at h
    · next hbreak =>
      obtain ⟨ss, hss, h⟩ := Outcome.bind_eq_ok_iff.1 h
      obtain ⟨hchars, hne, hread⟩ := readSegments_eq_ok hss
      dsimp only at h
      split at h
      · simp [throw, throwThe, MonadExceptOf.throw, bind, Except.bind] at h
      · next happend =>
        cases h
        have hsegments := segments_mk hne text
        have hline : Text.SingleLine text := by
          intro c hc
          rw [hbody] at hc
          rcases List.mem_cons.1 hc with rfl | hc
          · decide
          · have hb : ¬isLineBreak c = true := fun hb => hbreak (List.any_eq_true.2 ⟨c, hc, hb⟩)
            simpa [isLineBreak] using hb
        refine ⟨rfl, ?_, ?_, ?_, hline⟩
        · rw [hsegments, pointerText, ← hchars, ← hbody, String.ofList_toList]
        · rwa [hsegments]
        · simpa using happend
  · simp at h

/-- Cutting the characters of a pointer at its slashes gives the written forms of the segments. -/
theorem splitOn_pointerChars (ss : List Segment) :
    (pointerChars ss).splitOn '/' = [] :: ss.map fun s => escapeChars s.text.toList := by
  have hchars : pointerChars ss =
      ['/'].intercalate ([] :: ss.map fun s => escapeChars s.text.toList) := by
    rw [intercalate_slash, List.flatMap_map]
    rfl
  rw [hchars, List.splitOn_intercalate '/' _ (by simp)]
  intro piece hp
  rcases List.mem_cons.1 hp with rfl | hp
  · exact List.not_mem_nil
  · obtain ⟨s, -, rfl⟩ := List.mem_map.1 hp
    exact slash_notMem_escapeChars _

/-- The segment that a piece between two slashes stands for. -/
def readPiece (piece : List Char) : Segment :=
  ofText (String.ofList ((unescapeChars? piece).getD []))

/-- The segment that a written form is read as. -/
theorem readPiece_escapeChars {s : Segment} (h : s.IsRead) :
    readPiece (escapeChars s.text.toList) = s := by
  rw [readPiece, unescapeChars?_escapeChars, Option.getD_some, String.ofList_toList]
  exact h

/-- Read segments are determined by the pieces that they are written as. -/
theorem map_readPiece {ss : List Segment} (h : ∀ s ∈ ss, s.IsRead) :
    (ss.map fun s => escapeChars s.text.toList).map readPiece = ss := by
  induction ss with
  | nil => rfl
  | cons s ss ih =>
    obtain ⟨hs, hss⟩ := List.forall_mem_cons.1 h
    rw [List.map_cons, List.map_cons, readPiece_escapeChars hs, ih hss]

/-- Read segments are determined by the text of their pointer. -/
theorem pointerText_inj {ss us : List Segment} (hs : ∀ s ∈ ss, s.IsRead)
    (hu : ∀ s ∈ us, s.IsRead) (h : pointerText ss = pointerText us) : ss = us := by
  have hpieces := congrArg (fun t => t.toList.splitOn '/') h
  simp only [pointerText, String.toList_ofList, splitOn_pointerChars, List.cons.injEq,
    true_and] at hpieces
  rw [← map_readPiece hs, hpieces, map_readPiece hu]

/-- The text of the first segments of a pointer is the text up to the slash behind them. -/
theorem Resolved.ancestorText_eq {p : Pointer} (h : p.Resolved) (depth : Nat) :
    p.ancestorText depth = pointerText (p.segments.take depth) := by
  rw [ancestorText, h.text_eq, pointerText, String.toList_ofList, splitOn_pointerChars,
    List.take_succ_cons, intercalate_slash, List.nil_append, ← List.map_take, List.flatMap_map]
  rfl

/-- The text of a pointer is the text of all of its segments. -/
theorem Resolved.text_eq_ancestorText {p : Pointer} (h : p.Resolved) :
    p.text = p.ancestorText p.segments.length := by
  rw [h.ancestorText_eq, List.take_length, h.text_eq]

theorem mem_escapeChars {c : Char} {cs : List Char} (h : c ∈ cs) :
    c = '~' ∨ c = '/' ∨ c ∈ escapeChars cs := by
  fun_induction escapeChars cs with
  | case1 => simp at h
  | case2 rest ih =>
    rcases List.mem_cons.1 h with rfl | h
    · exact .inl rfl
    · exact (ih h).imp_right fun hr => hr.imp_right fun hm => by simp [hm]
  | case3 rest ih =>
    rcases List.mem_cons.1 h with rfl | h
    · exact .inr (.inl rfl)
    · exact (ih h).imp_right fun hr => hr.imp_right fun hm => by simp [hm]
  | case4 d rest hs ht ih =>
    rcases List.mem_cons.1 h with rfl | h
    · exact .inr (.inr (List.mem_cons_self ..))
    · exact (ih h).imp_right fun hr => hr.imp_right (List.mem_cons_of_mem d)

/-- The segments of a pointer on a single line are on a single line. -/
theorem singleLine_of_mem {ss : List Segment} (h : Text.SingleLine (pointerText ss)) {s : Segment}
    (hs : s ∈ ss) : Text.SingleLine s.text := by
  intro c hc
  rcases mem_escapeChars hc with rfl | rfl | hm
  · decide
  · decide
  · refine h c ?_
    rw [pointerText, String.toList_ofList]
    exact List.mem_flatMap.2 ⟨s, hs, List.mem_cons_of_mem _ hm⟩

theorem Resolved.singleLine_of_mem {p : Pointer} (h : p.Resolved) {s : Segment}
    (hs : s ∈ p.segments) : Text.SingleLine s.text :=
  Pointer.singleLine_of_mem (h.text_eq ▸ h.singleLine) hs

/-- The text of the first segments of a resolved pointer is on a single line. -/
theorem Resolved.singleLine_ancestorText {p : Pointer} (h : p.Resolved) (depth : Nat) :
    Text.SingleLine (p.ancestorText depth) := by
  intro c hc
  refine h.singleLine c ?_
  rw [h.ancestorText_eq, pointerText, String.toList_ofList] at hc
  rw [h.text_eq, pointerText, String.toList_ofList]
  obtain ⟨s, hs, hm⟩ := List.mem_flatMap.1 hc
  exact List.mem_flatMap.2 ⟨s, List.mem_of_mem_take hs, hm⟩

end Pointer

end Catalog
