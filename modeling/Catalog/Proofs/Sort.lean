import Catalog.Proofs.Outcome
import Catalog.Proofs.Text.Blank
import Catalog.Proofs.Text.Separated
import Catalog.Sort

/-!
# Sort orders as text

An entry of a sort order is a name with a direction, and it is written with the sign of the direction
in front of the name. Entries between commas are read back as they were written, whatever blanks
stand around them and whatever blank items stand among them. Any text at all is a list of items
between commas. Each item that is not blank is read as one entry, and the fields that are read always
have clauses to sort by.
-/

namespace Catalog

namespace Direction

/-- The sign that asks for a direction. -/
def sign : Direction → Char
  | .ascending => '+'
  | .descending => '-'

theorem isBlank_sign (d : Direction) : Text.isBlank d.sign = false := by
  cases d with
  | ascending => rfl
  | descending => rfl

theorem sign_ne_comma (d : Direction) : d.sign ≠ ',' := by
  cases d with
  | ascending => decide
  | descending => decide

/-- The word for a direction. -/
def word : Direction → String
  | .ascending => "asc"
  | .descending => "desc"

theorem name_eq_word (d : Direction) : d.name = d.word := by
  cases d <;> rfl

/-- The word for a direction is read back. -/
theorem read_word (d : Direction) : read d.word = .ok d := by
  have hascending : "asc".toLower = "asc" := by decide +kernel
  have hdescending : "desc".toLower = "desc" := by decide +kernel
  cases d with
  | ascending => simp [read, name, word, hascending]
  | descending => simp [read, name, word, hdescending]

end Direction

namespace SortField

/-- The field of an entry. -/
def ofEntry (e : String × Direction) : SortField := ⟨e.1, some e.2.word⟩

/-- An entry as it is written. -/
def signed (e : String × Direction) : String := String.ofList (e.2.sign :: e.1.toList)

/-- An item without blanks around it asks for an entry by its written form, or for ascending order
by a name alone. Such a name starts with no sign. -/
inductive Spells : List Char → String × Direction → Prop
  | signed (d : Direction) (name : List Char) : Spells (d.sign :: name) (String.ofList name, d)
  | unsigned {c : Char} (hplus : c ≠ '+') (hminus : c ≠ '-') (rest : List Char) :
    Spells (c :: rest) (String.ofList (c :: rest), .ascending)

/-- An item asks for an entry by what stands in it between blanks. -/
def Asks (item : String) (e : String × Direction) : Prop :=
  ∃ body, Text.Padded body item.toList ∧ ¬Text.StartsBlank body ∧ ¬Text.EndsBlank body ∧
    Spells body e

section

variable {item : String} {e : String × Direction} {body : List Char}

theorem spells_signed (e : String × Direction) : Spells (signed e).toList e := by
  have hsigned := Spells.signed e.2 e.1.toList
  rw [String.ofList_toList] at hsigned
  rw [signed, String.toList_ofList]
  exact hsigned

theorem exists_spells (h : body ≠ []) : ∃ e, Spells body e := by
  cases body with
  | nil => exact absurd rfl h
  | cons c rest =>
    by_cases hplus : c = '+'
    · subst hplus
      exact ⟨_, .signed .ascending rest⟩
    · by_cases hminus : c = '-'
      · subst hminus
        exact ⟨_, .signed .descending rest⟩
      · exact ⟨_, .unsigned hplus hminus rest⟩

theorem Spells.ofItem (h : Spells body e) : ofItem body = ofEntry e := by
  cases h with
  | signed d name =>
    cases d with
    | ascending => rfl
    | descending => rfl
  | unsigned hplus hminus rest =>
    rw [SortField.ofItem.eq_3 _ (by simp [hminus]) (by simp [hplus])]
    rfl

theorem Spells.comma_notMem (h : Spells body e) (hbody : ',' ∉ body) : ',' ∉ e.1.toList := by
  cases h with
  | signed d name =>
    rw [String.toList_ofList]
    exact fun hmem => hbody (List.mem_cons_of_mem _ hmem)
  | unsigned hplus hminus rest =>
    rw [String.toList_ofList]
    exact hbody

theorem Asks.ofItem (h : Asks item e) : ofItem (Text.trimChars item.toList) = ofEntry e := by
  obtain ⟨body, hpadded, hstart, hend, hspells⟩ := h
  rw [Text.trimChars_eq_iff.2 ⟨hpadded, hstart, hend⟩, hspells.ofItem]

theorem Asks.comma_notMem (h : Asks item e) (hitem : ',' ∉ item.toList) : ',' ∉ e.1.toList := by
  obtain ⟨body, ⟨before, after, -, -, hsplit⟩, -, -, hspells⟩ := h
  refine hspells.comma_notMem fun hmem => hitem ?_
  rw [hsplit]
  exact List.mem_append_left _ (List.mem_append_right _ hmem)

/-- An item that is not blank asks for an entry. -/
theorem exists_asks (h : ¬Text.Blank item.toList) : ∃ e, Asks item e := by
  obtain ⟨hpadded, hstart, hend⟩ := Text.trimChars_eq_iff.1 (rfl : Text.trimChars item.toList = _)
  obtain ⟨e, hspells⟩ := exists_spells (mt Text.trimChars_eq_nil_iff.1 h)
  exact ⟨e, _, hpadded, hstart, hend, hspells⟩

/-- A sign in front of a name that does not end in a blank has no blanks at its ends either. -/
theorem not_blank_signed (h : ¬Text.EndsBlank e.1.toList) :
    ¬Text.StartsBlank (signed e).toList ∧ ¬Text.EndsBlank (signed e).toList := by
  have hsign : Text.isBlank e.2.sign = false := e.2.isBlank_sign
  rw [signed, String.toList_ofList]
  constructor
  · simp [Text.StartsBlank, hsign]
  · rintro ⟨c, hc, hblank⟩
    rw [List.getLast?_cons, Option.some.injEq] at hc
    cases hlast : e.1.toList.getLast? with
    | none =>
      rw [hlast, Option.getD_none] at hc
      rw [← hc, hsign] at hblank
      cases hblank
    | some d =>
      rw [hlast, Option.getD_some] at hc
      exact h ⟨c, hc ▸ hlast, hblank⟩

/-- An entry with blanks around it is asked for, if its name does not end in one itself. -/
theorem asks_of_padded (hpadded : Text.Padded (signed e).toList item.toList)
    (hend : ¬Text.EndsBlank e.1.toList) : Asks item e := by
  obtain ⟨hsigned, hsignedEnd⟩ := not_blank_signed hend
  exact ⟨_, hpadded, hsigned, hsignedEnd, spells_signed e⟩

theorem comma_notMem_of_blank {cs : List Char} (h : Text.Blank cs) : ',' ∉ cs := fun hmem =>
  absurd (h _ hmem) (by decide)

theorem comma_notMem_of_padded (hpadded : Text.Padded (signed e).toList item.toList)
    (hname : ',' ∉ e.1.toList) : ',' ∉ item.toList := by
  obtain ⟨before, after, hbefore, hafter, hsplit⟩ := hpadded
  rw [hsplit, signed, String.toList_ofList]
  simp only [List.mem_append, List.mem_cons, not_or]
  exact ⟨⟨comma_notMem_of_blank hbefore, e.2.sign_ne_comma.symm, hname⟩,
    comma_notMem_of_blank hafter⟩

end

section

variable {items : List String} {es : List (String × Direction)}

/-- The items that are not blank. -/
def filled (items : List String) : List String :=
  items.filter fun item => ¬Text.Blank item.toList

theorem mem_filled {item : String} :
    item ∈ filled items ↔ item ∈ items ∧ ¬Text.Blank item.toList := by
  simp [filled]

/-- Items without commas are read one by one, except those that are blank. -/
theorem ofText_intercalate (h : ∀ item ∈ items, ',' ∉ item.toList) :
    ofText (",".intercalate items) =
      (filled items).map fun item => ofItem (Text.trimChars item.toList) := by
  by_cases hnil : items = []
  · subst hnil
    rfl
  · have hcomma : ",".toList = [','] := rfl
    have hpieces : ∀ piece ∈ items.map String.toList, ',' ∉ piece := List.forall_mem_map.2 h
    have hfilter : ((fun cs => !cs.isEmpty) ∘ Text.trimChars) ∘ String.toList =
        fun item : String => decide ¬Text.Blank item.toList := by
      funext item
      have hempty : (Text.trimChars item.toList).isEmpty = decide (Text.Blank item.toList) := by
        rw [Bool.eq_iff_iff, List.isEmpty_iff, decide_eq_true_iff, Text.trimChars_eq_nil_iff]
      simp [hempty]
    rw [ofText, String.toList_intercalate, hcomma,
      List.splitOn_intercalate ',' hpieces (by simpa using hnil), List.filter_map,
      List.filter_map, hfilter, List.map_map, List.map_map]
    rfl

/-- Items that ask for entries are read as these. -/
theorem ofText_of_asks (hitems : ∀ item ∈ items, ',' ∉ item.toList)
    (h : List.Forall₂ Asks (filled items) es) :
    ofText (",".intercalate items) = es.map ofEntry := by
  rw [ofText_intercalate hitems]
  generalize filled items = xs at h
  induction h with
  | nil => rfl
  | cons hfirst _ ih => rw [List.map_cons, List.map_cons, hfirst.ofItem, ih]

/-- Every item that is not blank asks for an entry. -/
theorem exists_forall₂_asks (items : List String) :
    ∃ es, List.Forall₂ Asks (filled items) es := by
  induction items with
  | nil => exact ⟨[], .nil⟩
  | cons item items ih =>
    obtain ⟨es, hes⟩ := ih
    by_cases hblank : Text.Blank item.toList
    · refine ⟨es, ?_⟩
      rw [filled, List.filter_cons_of_neg (by simpa using hblank)]
      exact hes
    · obtain ⟨e, he⟩ := exists_asks hblank
      refine ⟨e :: es, ?_⟩
      rw [filled, List.filter_cons_of_pos (by simpa using hblank)]
      exact .cons he hes

/-- A text is a list of items, at least one, with a comma between any two of them. -/
theorem exists_items (s : String) : ∃ items : List String, s = ",".intercalate items ∧
    items ≠ [] ∧ ∀ item ∈ items, ',' ∉ item.toList := by
  refine ⟨(s.toList.splitOn ',').map String.ofList, ?_, ?_, fun item hitem => ?_⟩
  · have hcomma : ",".toList = [','] := rfl
    have hid : String.toList ∘ String.ofList = id := funext fun cs => String.toList_ofList
    rw [← String.toList_inj, String.toList_intercalate, List.map_map, hid, List.map_id, hcomma,
      List.intercalate_splitOn]
  · simp [List.splitOn_ne_nil]
  · obtain ⟨piece, hpiece, rfl⟩ := List.mem_map.1 hitem
    rw [String.toList_ofList]
    exact Text.notMem_of_mem_splitOn hpiece

/-- Entries with blanks around them and blank items among them ask for the entries, and none of
these items holds a comma. -/
theorem asks_of_forall₂_padded
    (hes : ∀ e ∈ es, ',' ∉ e.1.toList ∧ ¬Text.EndsBlank e.1.toList)
    (h : List.Forall₂ (fun item e => Text.Padded (signed e).toList item.toList) (filled items) es) :
    List.Forall₂ Asks (filled items) es ∧ ∀ item ∈ items, ',' ∉ item.toList := by
  have hboth : List.Forall₂ (fun item e => ',' ∉ item.toList ∧ Asks item e) (filled items) es := by
    generalize filled items = xs at h
    induction h with
    | nil => exact .nil
    | cons hpadded _ ih =>
      obtain ⟨⟨hcomma, hend⟩, hrest⟩ := List.forall_mem_cons.1 hes
      exact .cons ⟨comma_notMem_of_padded hpadded hcomma, asks_of_padded hpadded hend⟩ (ih hrest)
  obtain ⟨hcomma, hasks⟩ := (List.forall₂_and_left ..).1 hboth
  refine ⟨hasks, fun item hitem => ?_⟩
  by_cases hblank : Text.Blank item.toList
  · exact comma_notMem_of_blank hblank
  · exact hcomma item (mem_filled.2 ⟨hitem, hblank⟩)

/-- So they are read as the entries. -/
theorem ofText_of_padded (hes : ∀ e ∈ es, ',' ∉ e.1.toList ∧ ¬Text.EndsBlank e.1.toList)
    (h : List.Forall₂ (fun item e => Text.Padded (signed e).toList item.toList) (filled items) es) :
    ofText (",".intercalate items) = es.map ofEntry := by
  obtain ⟨hasks, hcomma⟩ := asks_of_forall₂_padded hes h
  exact ofText_of_asks hcomma hasks

/-- The fields that are read from items without commas hold none either. -/
theorem comma_notMem_field (hitems : ∀ item ∈ items, ',' ∉ item.toList) {f : SortField}
    (hf : f ∈ ofText (",".intercalate items)) : ',' ∉ f.field.toList := by
  rw [ofText_intercalate hitems] at hf
  obtain ⟨item, hitem, rfl⟩ := List.mem_map.1 hf
  obtain ⟨hmem, hblank⟩ := mem_filled.1 hitem
  obtain ⟨e, he⟩ := exists_asks hblank
  rw [he.ofItem]
  exact he.comma_notMem (hitems item hmem)

/-- No entry is written as a blank item. -/
theorem filled_map_signed (es : List (String × Direction)) :
    filled (es.map signed) = es.map signed := by
  refine List.filter_eq_self.2 fun item hitem => ?_
  obtain ⟨e, -, rfl⟩ := List.mem_map.1 hitem
  simp [signed, Text.Blank, Direction.isBlank_sign]

end

/-- Each entry has a clause. -/
theorem compileSort_map_ofEntry (m : Mapping) (es : List (String × Direction)) :
    compileSort m (es.map ofEntry) = .ok (es.map fun e => (m.resolve e.1, e.2)) := by
  rw [compileSort, Outcome.mapM_eq_ok_iff, List.forall₂_map_left_iff, List.forall₂_map_right_iff,
    List.forall₂_same]
  intro e _
  have hread : (ofEntry e).readDirection = .ok e.2 := e.2.read_word
  rw [compile, hread]
  rfl

/-- Entries whose names hold no comma and do not end in a blank are read back from their written
forms between commas, also with blanks around these and with blank items among them. Any text is a
list of items between commas, and each item that is not blank is read as the entry that it asks for.
The names that are read hold no comma, and to sort by them there is one clause for each entry, with
the path of its name as the only member. -/
theorem orders_of_text :
    (∀ es : List (String × Direction),
      (∀ e ∈ es, ',' ∉ e.1.toList ∧ ¬Text.EndsBlank e.1.toList) →
        ofText (",".intercalate (es.map signed)) = es.map ofEntry ∧
        ∀ items, List.Forall₂ (fun item e => Text.Padded (signed e).toList item.toList)
            (filled items) es →
          ofText (",".intercalate items) = es.map ofEntry) ∧
    ∀ s, ∃ items es, s = ",".intercalate items ∧ items ≠ [] ∧
      (∀ item ∈ items, ',' ∉ item.toList) ∧ List.Forall₂ Asks (filled items) es ∧
      ofText s = es.map ofEntry ∧ (∀ f ∈ ofText s, ',' ∉ f.field.toList) ∧
      ∀ m : Mapping, (compileSort m (ofText s)).map (List.map sortClauseJson) =
        .ok (es.map fun e => .object [(m.resolve e.1, .object [("order", .text e.2.word)])]) := by
  constructor
  · intro es hes
    refine ⟨ofText_of_padded hes ?_, fun items => ofText_of_padded hes⟩
    rw [filled_map_signed, List.forall₂_map_left_iff, List.forall₂_same]
    exact fun e _ => Text.padded_self _
  · intro s
    obtain ⟨items, rfl, hne, hcomma⟩ := exists_items s
    obtain ⟨es, hes⟩ := exists_forall₂_asks items
    have hread := ofText_of_asks hcomma hes
    refine ⟨items, es, rfl, hne, hcomma, hes, hread, fun f => comma_notMem_field hcomma,
      fun m => ?_⟩
    rw [hread, compileSort_map_ofEntry, Except.map, List.map_map]
    simp [Function.comp_def, sortClauseJson, Direction.name_eq_word]

/-- The blanks in front of a name are part of it, and a name may be empty. -/
theorem orders_of_text_blanks :
    ofText (",".intercalate ["- id", "+"]) = [⟨" id", some "desc"⟩, ⟨"", some "asc"⟩] ∧
      ofText (",".intercalate ["", "\u00a0- id\t", " ", "+"]) =
        [⟨" id", some "desc"⟩, ⟨"", some "asc"⟩] := by
  have hnames : ∀ e ∈ [(" id", Direction.descending), ("", Direction.ascending)],
      ',' ∉ e.1.toList ∧ ¬Text.EndsBlank e.1.toList :=
    List.forall_mem_cons.2 ⟨⟨by decide, by decide⟩,
      List.forall_mem_singleton.2 ⟨by decide, by decide⟩⟩
  obtain ⟨hwritten, hpadded⟩ := orders_of_text.1 _ hnames
  refine ⟨hwritten, hpadded _ ?_⟩
  have hfilled : filled ["", "\u00a0- id\t", " ", "+"] = ["\u00a0- id\t", "+"] := by decide
  rw [hfilled]
  exact .cons ⟨['\u00a0'], ['\t'], by decide, by decide, rfl⟩
    (.cons ⟨[], [], by decide, by decide, rfl⟩ .nil)

end SortField

end Catalog
