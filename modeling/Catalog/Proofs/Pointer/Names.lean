import Catalog.Proofs.Pointer.Keys

/-!
# Pointers are lists of names

The texts that resolve are exactly those that some names are written as, each of them escaped and
behind a slash. The names have to stand on single lines, and only the last one may stand for the end
of a list. Resolving gives these names back, each as the segment that its own text decides, so
nothing of the text is lost: writing the segments gives it again, and no two texts resolve to the
same segments.
-/

namespace Catalog

/-- What a name in a pointer stands for. Everything that is not written like a place in a list is
the name of a member, such as `00`, `-0`, `+1` and the decimals from `2 ^ 64` on. -/
inductive StandsFor : String → Segment → Prop where
  | append : StandsFor "-" .append
  | position {n : Nat} (hlt : n < Text.wordBound) : StandsFor (Nat.repr n) (.position n)
  | fromEnd {n : Nat} (hpos : 0 < n) (hlt : n < Text.wordBound) :
    StandsFor ("-" ++ Nat.repr n) (.fromEnd n)
  | key {name : String} (h : ¬IsIndexShaped name) : StandsFor name (.key name)

theorem Segment.standsFor_ofText (name : String) : StandsFor name (ofText name) := by
  by_cases hend : name.toList = ['-']
  · obtain rfl : name = "-" := String.toList_inj.1 hend
    exact .append
  · cases hdistance : distance? name.toList with
    | some n =>
      have hread : ofText name = .fromEnd n := by simp only [ofText, if_neg hend, hdistance]
      obtain ⟨rfl, hlt, hpos⟩ := distance?_toList_eq_some_iff.1 hdistance
      exact hread ▸ .fromEnd hpos hlt
    | none =>
      cases hposition : Text.canonical? name.toList with
      | some n =>
        have hread : ofText name = .position n := by
          simp only [ofText, if_neg hend, hdistance, hposition]
        obtain ⟨rfl, hlt⟩ := canonical?_toList_eq_some_iff.1 hposition
        exact hread ▸ .position hlt
      | none =>
        have hread : ofText name = .key name := by
          simp only [ofText, if_neg hend, hdistance, hposition]
        exact hread ▸ .key ((ofText_eq_key_iff name).1 hread)

namespace Pointer

open Segment

/-- The names are written as this text, and nothing keeps it from being resolved. -/
structure Spells (names : List String) (text : String) : Prop where
  ne_nil : names ≠ []
  text_eq : text = String.join (names.map fun name => "/" ++ escape name)
  singleLine : ∀ name ∈ names, Text.SingleLine name
  /-- Only the last name may be the end of a list. -/
  end_notMem : "-" ∉ names.dropLast

/-- The text of segments is made up of their own texts. -/
theorem pointerText_eq_join (ss : List Segment) :
    pointerText ss = String.join (ss.map fun s => "/" ++ escape s.text) := by
  rw [← String.toList_inj, pointerText, String.toList_ofList, String.toList_join, List.flatMap_map]
  exact List.flatMap_congr fun s _ => by simp [escape]

/-- A pointer that is resolved is spelled by the texts of its segments. -/
theorem Resolved.spells {p : Pointer} (h : p.Resolved) :
    Spells (p.segments.map Segment.text) p.text := by
  refine ⟨by simp [segments], ?_, ?_, ?_⟩
  · rw [h.text_eq, pointerText_eq_join, List.map_map]
    rfl
  · intro name hname
    obtain ⟨s, hs, rfl⟩ := List.mem_map.1 hname
    exact h.singleLine_of_mem hs
  · intro hend
    have hparents : (p.segments.map Segment.text).dropLast = p.parents.map Segment.text := by
      simp [segments]
    rw [hparents] at hend
    obtain ⟨s, hs, htext⟩ := List.mem_map.1 hend
    have hread : ofText s.text = s := h.isRead s (List.mem_append_left _ hs)
    obtain rfl : s = .append := by
      rw [← hread, htext]
      rfl
    exact h.append_notMem hs

/-- Names that spell a text make up a pointer that is resolved. -/
theorem Spells.resolved {names : List String} {text : String} (h : Spells names text) :
    ∃ p : Pointer, p.text = text ∧ p.segments = names.map ofText ∧ p.Resolved := by
  have hne : names.map ofText ≠ [] := by simpa using h.ne_nil
  have hsegments := segments_mk hne text
  have htext : text = pointerText (names.map ofText) := by
    rw [h.text_eq, pointerText_eq_join, List.map_map]
    congr 1
    exact List.map_congr_left fun name _ => by rw [Function.comp_apply, text_ofText]
  refine ⟨⟨text, (names.map ofText).dropLast, (names.map ofText).getLast?.getD .append⟩, rfl,
    hsegments, ?_, ?_, ?_, ?_⟩
  · rw [hsegments]
    exact htext
  · rw [hsegments]
    intro s hs
    obtain ⟨name, -, rfl⟩ := List.mem_map.1 hs
    exact isRead_ofText name
  · intro hend
    rw [← List.map_dropLast] at hend
    obtain ⟨name, hname, happend⟩ := List.mem_map.1 hend
    exact h.end_notMem ((ofText_eq_append_iff name).1 happend ▸ hname)
  · have hline : Text.SingleLine (pointerText (names.map ofText)) := by
      refine singleLine_pointerText fun s hs => ?_
      obtain ⟨name, hname, rfl⟩ := List.mem_map.1 hs
      rw [text_ofText]
      exact h.singleLine name hname
    exact htext ▸ hline

/-- A text resolves exactly when names spell it. Then it resolves to the segments that these names
stand for, in their order, and writing the segments gives the text again. So no two texts resolve to
the same segments. -/
theorem resolve_lossless (text : String) :
    ((∃ p, resolve text = .ok p) ↔ ∃ names, Spells names text) ∧
      (∀ names, Spells names text → ∃ p, resolve text = .ok p ∧
        List.Forall₂ StandsFor names p.segments ∧ p.segments.map Segment.text = names ∧
        String.join (p.segments.map fun s => "/" ++ escape s.text) = text) ∧
      ∀ other p q, resolve text = .ok p → resolve other = .ok q → p.segments = q.segments →
        text = other := by
  have hread (names : List String) (h : Spells names text) : ∃ p, resolve text = .ok p ∧
      p.segments = names.map ofText ∧ p.Resolved := by
    obtain ⟨p, rfl, hsegments, hp⟩ := h.resolved
    exact ⟨p, hp.resolve_text, hsegments, hp⟩
  refine ⟨⟨?_, ?_⟩, ?_, ?_⟩
  · rintro ⟨p, hp⟩
    obtain ⟨rfl, hresolved⟩ := resolve_eq_ok hp
    exact ⟨_, hresolved.spells⟩
  · rintro ⟨names, h⟩
    obtain ⟨p, hp, -⟩ := hread names h
    exact ⟨p, hp⟩
  · intro names h
    obtain ⟨p, hp, hsegments, hresolved⟩ := hread names h
    refine ⟨p, hp, ?_, ?_, ?_⟩
    · rw [hsegments, List.forall₂_map_right_iff, List.forall₂_same]
      exact fun name _ => standsFor_ofText name
    · rw [hsegments, List.map_map]
      exact (List.map_congr_left fun name _ => text_ofText name).trans (List.map_id names)
    · rw [← pointerText_eq_join, ← hresolved.text_eq]
      exact (resolve_eq_ok hp).1
  · intro other p q hp hq hsegments
    obtain ⟨rfl, hresolved⟩ := resolve_eq_ok hp
    obtain ⟨rfl, hresolved'⟩ := resolve_eq_ok hq
    rw [hresolved.text_eq, hresolved'.text_eq, hsegments]

/-- The names of members may look like escapes, or like positions that are not canonical. -/
theorem resolve_lossless_escaped :
    Spells ["a/b", "~1", "-0", "007", "-"] "/a~1b/~01/-0/007/-" ∧
      ∃ p, resolve "/a~1b/~01/-0/007/-" = .ok p ∧
        p.segments = [.key "a/b", .key "~1", .key "-0", .key "007", .append] ∧
        List.Forall₂ StandsFor ["a/b", "~1", "-0", "007", "-"] p.segments := by
  have hspells : Spells ["a/b", "~1", "-0", "007", "-"] "/a~1b/~01/-0/007/-" :=
    ⟨by decide, by decide, by decide, by decide⟩
  obtain ⟨p, hp, hstands, -⟩ := (resolve_lossless _).2.1 _ hspells
  have hsegments : (resolve "/a~1b/~01/-0/007/-").toOption.map segments =
      some [.key "a/b", .key "~1", .key "-0", .key "007", .append] := by decide +kernel
  rw [hp, Except.toOption, Option.map_some, Option.some.injEq] at hsegments
  exact ⟨hspells, p, hp, hsegments, hstands⟩

end Pointer

end Catalog
