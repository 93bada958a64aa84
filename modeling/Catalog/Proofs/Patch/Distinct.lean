import Catalog.Proofs.Patch.Secured

/-!
# Only equal guards share a line

Repeated guards are dropped by their lines. A line is the text of its statement, and that text tells
what the guard is about: one that aborts the script names a pointer in its reason, and one that makes
a container writes the accessor of the container. So a guard that is left out is the one in force
again: the same condition about the same container, with the same reason.
-/

namespace Catalog.Patch

open Catalog.Script Segment

namespace Emission

/-- The guards that see to a member of the container that segments lead to: they test it, or they
test whether a value can be inserted there, or they make it. -/
inductive Concerns (above : List Segment) (s : Segment) : Emission → Prop where
  | isAbout {e : Emission} (hread : ∀ t ∈ above ++ [s], t.IsRead) (h : IsAbout above s e) :
    Concerns above s e
  | creation {name : String} (h : s = .key name) : Concerns above s (creation (chain above) name)

variable {p : Pointer} {e e' : Emission}

/-- Guards with the same text are the same guard. -/
theorem Concerns.eq_of_text {above above' : List Segment} {s s' : Segment}
    (h : Concerns above s e) (h' : Concerns above' s' e') (hw : e.statement.WellWritten)
    (hw' : e'.statement.WellWritten) (htext : e.statement.text = e'.statement.text) : e = e' := by
  cases h with
  | isAbout hread habout =>
    cases h' with
    | isAbout hread' habout' => exact habout.eq_of_text habout' hread hread' hw hw' htext
    | creation hs' =>
      obtain ⟨c, pointer, rfl⟩ := habout.exists_demand
      exact absurd htext (demand_text_ne_creation _ _ _ _)
  | creation hs =>
    cases h' with
    | isAbout hread' habout' =>
      obtain ⟨c, pointer, rfl⟩ := habout'.exists_demand
      exact absurd htext.symm (demand_text_ne_creation _ _ _ _)
    | creation hs' =>
      obtain ⟨rfl, rfl⟩ := creation_text_inj htext
      rfl

theorem Secures.concerns {above : List Segment} {s : Segment} (h : Secures above s e)
    (hread : ∀ t ∈ above ++ [s], t.IsRead) : Concerns above s e := by
  cases h with
  | presence => exact .isAbout hread .presence
  | creation name => exact .creation rfl

/-- The guards of the containers of a pointer see to them. -/
theorem concerns_of_mem_ancestors (hp : p.Resolved) {create : Bool}
    (he : e ∈ ancestors p create) : ∃ above s, Concerns above s e := by
  obtain ⟨⟨s, depth⟩, hm, rfl⟩ := List.mem_map.1 he
  have hs : p.parents[depth]? = some s := List.mem_zipIdx_iff_getElem?.1 hm
  refine ⟨_, s, (secures_ancestor hp create hs).concerns fun t ht => hp.isRead t ?_⟩
  refine List.mem_append_left _ ?_
  rcases List.mem_append.1 ht with ht | ht
  · exact List.mem_of_mem_take ht
  · exact List.mem_singleton.1 ht ▸ List.mem_of_getElem? hs

theorem concerns_of_mem_insertable (hp : p.Resolved) {create : Bool}
    (he : e ∈ insertable p create) : ∃ above s, Concerns above s e := by
  rcases List.mem_append.1 he with he | he
  · exact concerns_of_mem_ancestors hp he
  · split at he
    · rw [List.mem_singleton.1 he, hp.text_eq]
      exact ⟨p.parents, p.key, .isAbout hp.isRead .insertable⟩
    · simp at he

end Emission

open Emission

/-- Every guard of an edit sees to a member of some container. -/
theorem Edit.Resolved.concerns_of_mem_guards {edit : Edit} (hr : edit.Resolved) {create : Bool}
    {e : Emission} (he : e ∈ edit.guards create) : ∃ above s, Concerns above s e := by
  cases edit with
  | add p v => exact concerns_of_mem_insertable (hr.inserted p (List.mem_singleton_self p)) he
  | _ =>
    obtain ⟨above, s, hread, habout⟩ := hr.isAbout_of_mem_guards he
    exact ⟨above, s, .isAbout hread habout⟩

/-- Guards of edits with the same line are the same guard. -/
theorem Edit.Resolved.eq_of_line {edit edit' : Edit} (hr : edit.Resolved) (hr' : edit'.Resolved)
    {create create' : Bool} {index index' : Nat} {e e' : Emission}
    (he : e ∈ edit.emissions create index) (he' : e' ∈ edit'.emissions create' index')
    (hrole : e.role = .guard) (hrole' : e'.role = .guard) (h : e.line = e'.line) :
    e = e' ∧ ∃ above s, Concerns above s e := by
  have hguard {edit : Edit} {create : Bool} {index : Nat} {e : Emission}
      (he : e ∈ edit.emissions create index) (hrole : e.role = .guard) : e ∈ edit.guards create := by
    rw [edit.emissions_eq] at he
    exact (List.mem_append.1 he).resolve_right fun he => role_of_mem_effects he hrole
  obtain ⟨above, s, hconcerns⟩ := hr.concerns_of_mem_guards (hguard he hrole)
  obtain ⟨above', s', hconcerns'⟩ := hr'.concerns_of_mem_guards (hguard he' hrole')
  have hw := hr.wellWritten_emissions he
  have hw' := hr'.wellWritten_emissions he'
  rw [Emission.line, Emission.line, hw.normalize_text, hw'.normalize_text] at h
  exact ⟨hconcerns.eq_of_text hconcerns' hw hw' h, above, s, hconcerns⟩

/-- A guard that is left out stands before it already, with no removal in between. -/
theorem IsRepeat.exists_split {edits : List Edit} (hr : ∀ edit ∈ edits, edit.Resolved)
    {create : Bool} {before after : List Emission} {e : Emission}
    (hsplit : emissions create edits = before ++ e :: after) (h : IsRepeat e before) :
    ∃ xs ys, before = xs ++ e :: ys ∧ ∀ r ∈ ys, r.role ≠ .removal := by
  obtain ⟨hrole, xs, g, ys, rfl, hg, hline, hys⟩ := h
  have hedit {g : Emission} (hmem : g ∈ emissions create edits) :
      ∃ (edit : Edit) (index : Nat), edit.Resolved ∧ g ∈ edit.emissions create index := by
    obtain ⟨⟨edit, index⟩, hm, hmem⟩ := List.mem_flatMap.1 hmem
    exact ⟨edit, index, hr edit (List.fst_mem_of_mem_zipIdx hm), hmem⟩
  obtain ⟨edit, index, hresolved, hmem⟩ := hedit (g := g) (by simp [hsplit])
  obtain ⟨edit', index', hresolved', hmem'⟩ := hedit (g := e) (by simp [hsplit])
  obtain ⟨rfl, -⟩ := hresolved.eq_of_line hresolved' hmem hmem' hg hrole hline
  exact ⟨xs, ys, rfl, hys⟩

/-- No two chains have the same text, so an accessor determines its pointer. Guards that any two
operations can emit have the same line only if they are the same guard, which sees to a member of one
container. So a guard that is left out of a script stands before it already, with no removal in
between. -/
theorem lines_tell_apart :
    (∀ ss us, (chain ss).text = (chain us).text → ss = us) ∧
      (∀ a b p q, Pointer.resolve a = .ok p → Pointer.resolve b = .ok q →
        p.accessor.text = q.accessor.text → a = b) ∧
      (∀ (o o' : Operation) edit edit' create create' index index' e e',
        o.resolve = .ok edit → o'.resolve = .ok edit' → e ∈ edit.emissions create index →
          e' ∈ edit'.emissions create' index' → e.role = .guard → e'.role = .guard →
            e.line = e'.line → e = e' ∧ ∃ above s, Concerns above s e) ∧
      ∀ (operations : List Operation) edits create before e after,
        operations.mapM Operation.resolve = .ok edits →
          emissions create edits = before ++ e :: after → IsRepeat e before →
            ∃ xs ys, before = xs ++ e :: ys ∧ ∀ r ∈ ys, r.role ≠ .removal := by
  refine ⟨fun ss us => text_chain_inj, ?_, ?_, ?_⟩
  · intro a b p q hresolve hresolve' h
    obtain ⟨rfl, hp⟩ := Pointer.resolve_eq_ok hresolve
    obtain ⟨rfl, hq⟩ := Pointer.resolve_eq_ok hresolve'
    rw [Pointer.accessor_eq_chain, Pointer.accessor_eq_chain] at h
    rw [hp.text_eq, hq.text_eq, text_chain_inj h]
  · intro o o' edit edit' create create' index index' e e' ho ho' he he' hrole hrole' h
    exact (Operation.resolve_eq_ok ho).1.eq_of_line (Operation.resolve_eq_ok ho').1 he he' hrole
      hrole' h
  · intro operations edits create before e after hedits hsplit hrepeat
    exact hrepeat.exists_split (fun edit he => Operation.resolved_of_mapM hedits he) hsplit

/-- A name with an apostrophe and a bracket stays inside its quotes. The guard of the removal has the
line of the guard of the test, and is left out. -/
theorem lines_tell_apart_test_remove :
    ∃ p guard, guard = presence (chain []) (.key "it's['a']") "/it's['a']" ∧
      (Operation.ofTest "/it's['a']" .null).resolve = .ok (.test p .null) ∧
      (Operation.ofRemove "/it's['a']").resolve = .ok (.remove p) ∧
      guard ∈ (Edit.test p .null).emissions false 0 ∧ guard ∈ (Edit.remove p).emissions true 1 ∧
      (∃ above s, Concerns above s guard) ∧ IsRepeat guard (emissions false [.test p .null]) ∧
      ∃ xs ys, emissions false [.test p .null] = xs ++ guard :: ys := by
  let p : Pointer := ⟨"/it's['a']", [], .key "it's['a']"⟩
  let guard := presence (chain []) (.key "it's['a']") "/it's['a']"
  have htest : (Operation.ofTest "/it's['a']" .null).resolve = .ok (.test p .null) := rfl
  have hremove : (Operation.ofRemove "/it's['a']").resolve = .ok (.remove p) := rfl
  have hmem : guard ∈ (Edit.test p .null).emissions false 0 := List.mem_cons_self
  have hmem' : guard ∈ (Edit.remove p).emissions true 1 := List.mem_cons_self
  obtain ⟨-, hconcerns⟩ :=
    lines_tell_apart.2.2.1 _ _ _ _ _ _ _ _ _ _ htest hremove hmem hmem' rfl rfl rfl
  have hrepeat : IsRepeat guard (emissions false [.test p .null]) :=
    ⟨rfl, [], guard, _, rfl, rfl, rfl, by simp⟩
  obtain ⟨xs, ys, hsplit, -⟩ := lines_tell_apart.2.2.2
    [.ofTest "/it's['a']" .null, .ofRemove "/it's['a']"] [.test p .null, .remove p] false
    (emissions false [.test p .null]) guard [⟨.removal, .discard (removal p)⟩] rfl rfl hrepeat
  exact ⟨p, guard, rfl, htest, hremove, hmem, hmem', hconcerns, hrepeat, xs, ys, hsplit⟩

end Catalog.Patch
