import Catalog.Proofs.Pointer.Resolved

/-!
# Pointers to members

Reading is the inverse of writing: a pointer that keeps the promises of resolving is resolved from
its own text. The text of segments is refused only for a line break or for the end of a list above
the last one. A name is read as the name of a member, and never as a place in a list, unless it is
written like one. So names on single lines that are not written like places have a pointer that
leads from one object into the next.
-/

namespace Catalog

open Segment

/-- The name is written like a place in a list: the end, a position, or a distance from the end. -/
def IsIndexShaped (name : String) : Prop :=
  name = "-" ∨ (∃ n < Text.wordBound, name = Nat.repr n) ∨
    ∃ n < Text.wordBound, 0 < n ∧ name = "-" ++ Nat.repr n

/-- The name stands on a single line and is not written like a place in a list. -/
def IsPlainName (name : String) : Prop := Text.SingleLine name ∧ ¬IsIndexShaped name

namespace Segment

theorem canonical?_toList_eq_some_iff {s : String} {n : Nat} :
    Text.canonical? s.toList = some n ↔ s = Nat.repr n ∧ n < Text.wordBound := by
  rw [Text.canonical?_eq_some_iff, ← Nat.toList_repr, String.toList_inj]

theorem distance?_toList_eq_some_iff {s : String} {n : Nat} :
    distance? s.toList = some n ↔ s = "-" ++ Nat.repr n ∧ n < Text.wordBound ∧ 0 < n := by
  have hchars (rest : List Char) : '-' :: rest = ("-" ++ Nat.repr n).toList ↔
      rest = Nat.toDigits 10 n := by
    rw [String.toList_append, Nat.toList_repr]
    exact List.cons_inj_right '-'
  rw [← String.toList_inj]
  unfold distance?
  split
  · next rest hrest =>
    rw [hrest, hchars, Option.filter_eq_some_iff, Text.canonical?_eq_some_iff, decide_eq_true_iff,
      and_assoc]
  · next hminus =>
    constructor
    · intro h
      simp at h
    · rintro ⟨h, -⟩
      rw [String.toList_append] at h
      exact absurd h (hminus _)

/-- A text is read as the name of a member unless it is written like a place in a list. -/
theorem ofText_eq_key_iff (name : String) : ofText name = .key name ↔ ¬IsIndexShaped name := by
  have hminus : name.toList = ['-'] ↔ name = "-" := by
    rw [← String.toList_inj]
    rfl
  unfold ofText IsIndexShaped
  split
  · next h => simp [hminus.1 h]
  · next h =>
    split
    · next n hn =>
      obtain ⟨hname, hlt, hpos⟩ := distance?_toList_eq_some_iff.1 hn
      simp only [reduceCtorEq, false_iff, not_not]
      exact .inr (.inr ⟨n, hlt, hpos, hname⟩)
    · next hdistance =>
      split
      · next n hn =>
        obtain ⟨hname, hlt⟩ := canonical?_toList_eq_some_iff.1 hn
        simp only [reduceCtorEq, false_iff, not_not]
        exact .inr (.inl ⟨n, hlt, hname⟩)
      · next hposition =>
        refine iff_of_true rfl ?_
        rintro (he | ⟨n, hlt, hname⟩ | ⟨n, hlt, hpos, hname⟩)
        · exact h (hminus.2 he)
        · rw [canonical?_toList_eq_some_iff.2 ⟨hname, hlt⟩] at hposition
          simp at hposition
        · rw [distance?_toList_eq_some_iff.2 ⟨hname, hlt, hpos⟩] at hdistance
          simp at hdistance

theorem ofText_eq_append_iff (name : String) : ofText name = .append ↔ name = "-" := by
  constructor
  · intro h
    rw [← text_ofText name, h]
    rfl
  · rintro rfl
    rfl

/-- Segments that are all names of members. -/
def keys (path : List String) : List Segment := path.map .key

@[simp] theorem keys_append (path below : List String) :
    keys (path ++ below) = keys path ++ keys below := List.map_append

theorem keys_injective : Function.Injective keys :=
  List.map_injective_iff.2 fun _ _ h => key.inj h

/-- Names are written in a pointer like the segments that they are read as. -/
theorem pointerText_keys (names : List String) :
    pointerText (keys names) = pointerText (names.map ofText) := by
  rw [pointerText, pointerText, pointerChars, pointerChars, keys, List.flatMap_map,
    List.flatMap_map]
  refine congrArg String.ofList (List.flatMap_congr fun name _ => ?_)
  rw [text_ofText]
  rfl

theorem pointerText_append_key (path : List String) (name : String) :
    pointerText (keys path) ++ "/" ++ Pointer.escape name = pointerText (keys (path ++ [name])) := by
  rw [← String.toList_inj]
  simp [pointerText, pointerChars, keys, text, Pointer.escape]

end Segment

namespace Pointer

theorem mem_of_mem_escapeChars {c : Char} {cs : List Char} (h : c ∈ escapeChars cs) :
    c = '~' ∨ c = '0' ∨ c = '1' ∨ c ∈ cs := by
  fun_induction escapeChars cs with
  | case1 => simp at h
  | case2 rest ih => grind
  | case3 rest ih => grind
  | case4 d rest hs ht ih => grind

/-- Segments on single lines make up a pointer on a single line. -/
theorem singleLine_pointerText {ss : List Segment} (h : ∀ s ∈ ss, Text.SingleLine s.text) :
    Text.SingleLine (pointerText ss) := by
  intro c hc
  rw [pointerText, String.toList_ofList] at hc
  obtain ⟨s, hs, hc⟩ := List.mem_flatMap.1 hc
  rcases List.mem_cons.1 hc with rfl | hc
  · decide
  · rcases mem_of_mem_escapeChars hc with rfl | rfl | rfl | hc
    · decide
    · decide
    · decide
    · exact h s hs c hc

theorem singleLine_pointerText_iff (ss : List Segment) :
    Text.SingleLine (pointerText ss) ↔ ∀ s ∈ ss, Text.SingleLine s.text :=
  ⟨fun h _ => singleLine_of_mem h, singleLine_pointerText⟩

/-- Segments that are read are read from the text that they are written as. -/
theorem readSegments_pointerChars {ss : List Segment} (hread : ∀ s ∈ ss, s.IsRead)
    {body : List Char} (h : pointerChars ss = '/' :: body) : readSegments body = .ok ss := by
  have hpieces : body.splitOn '/' = ss.map fun s => escapeChars s.text.toList := by
    have hsplit := splitOn_pointerChars ss
    rw [h, List.splitOn_cons_eq_if_modifyHead, if_pos (beq_self_eq_true '/')] at hsplit
    exact (List.cons.inj hsplit).2
  rw [readSegments, hpieces, Outcome.mapM_eq_ok_iff, List.forall₂_map_left_iff, List.forall₂_same]
  intro s hs
  refine Outcome.bind_eq_ok_iff.2 ⟨s.text, ?_, ?_⟩
  · rw [unescape, String.toList_ofList, unescapeChars?_escapeChars]
    simp
  · exact congrArg Except.ok (hread s hs)

theorem any_isLineBreak_iff {text : String} {body : List Char} (h : text.toList = '/' :: body) :
    body.any isLineBreak = true ↔ ¬Text.SingleLine text := by
  rw [Text.SingleLine, h, List.forall_mem_cons, and_iff_right (by decide)]
  simp [isLineBreak, ← or_iff_not_imp_left]

/-- What the text of segments resolves to. -/
theorem resolve_pointerText {ss : List Segment} (hne : ss ≠ []) (hread : ∀ s ∈ ss, s.IsRead) :
    resolve (pointerText ss) =
      if Text.SingleLine (pointerText ss) then
        if .append ∈ ss.dropLast then .error (.path (pointerText ss) .endInside)
        else .ok ⟨pointerText ss, ss.dropLast, ss.getLast hne⟩
      else .error (.path (pointerText ss) .lineBreak) := by
  obtain ⟨body, hbody⟩ : ∃ body, pointerChars ss = '/' :: body := by
    obtain ⟨s, rest, rfl⟩ := List.exists_cons_of_ne_nil hne
    exact ⟨_, by rw [pointerChars, List.flatMap_cons, List.cons_append]⟩
  have hchars : (pointerText ss).toList = '/' :: body := by
    rw [pointerText, String.toList_ofList, hbody]
  have hbreak := any_isLineBreak_iff hchars
  have hkey : ss.getLast?.getD .append = ss.getLast hne := by
    rw [List.getLast?_eq_getLast_of_ne_nil hne, Option.getD_some]
  unfold resolve
  split
  · next other hother =>
    obtain rfl : body = other := (List.cons.inj (hchars.symm.trans hother)).2
    by_cases hline : Text.SingleLine (pointerText ss)
    · rw [if_neg fun h => hbreak.1 h hline, if_pos hline, readSegments_pointerChars hread hbody]
      simp only [bind, Except.bind, List.contains_iff_mem, hkey]
      split
      · rfl
      · rfl
    · rw [if_pos (hbreak.2 hline), if_neg hline]
  · next hslash => exact absurd hchars (hslash body)

/-- A pointer that keeps the promises of resolving is what its text resolves to. -/
theorem Resolved.resolve_text {p : Pointer} (h : p.Resolved) : resolve p.text = .ok p := by
  have hne : p.segments ≠ [] := List.concat_ne_nil p.key p.parents
  have hparents : p.segments.dropLast = p.parents := by simp [segments]
  have hkey : p.segments.getLast hne = p.key := by simp [segments]
  have hresolve := resolve_pointerText hne h.isRead
  rwa [← h.text_eq, if_pos h.singleLine, hparents, if_neg h.append_notMem, hkey] at hresolve

/-- The pointer to a member of the object that names lead to. -/
def ofKeys (above : List String) (name : String) : Pointer :=
  ⟨pointerText (keys (above ++ [name])), keys above, .key name⟩

@[simp] theorem segments_ofKeys (above : List String) (name : String) :
    (ofKeys above name).segments = keys (above ++ [name]) := by
  rw [keys_append]
  rfl

/-- Plain names make up a pointer that is resolved. -/
theorem resolved_ofKeys {above : List String} {name : String}
    (h : ∀ n ∈ above ++ [name], IsPlainName n) : (ofKeys above name).Resolved := by
  refine ⟨by rw [segments_ofKeys, ofKeys], ?_, ?_, ?_⟩
  · rw [segments_ofKeys]
    intro s hs
    obtain ⟨n, hn, rfl⟩ := List.mem_map.1 hs
    exact (ofText_eq_key_iff n).2 (h n hn).2
  · simp [ofKeys, keys]
  · refine singleLine_pointerText fun s hs => ?_
    obtain ⟨n, hn, rfl⟩ := List.mem_map.1 hs
    exact (h n hn).1

end Pointer

end Catalog
