import Catalog.Proofs.Patch.Guards
import Catalog.Proofs.Pointer.Keys
import Mathlib.Data.List.TakeDrop

/-!
# The containers that a pointer leads through

A pointer leads below another one exactly when its text goes on behind the text of the other one
with a slash, since the pieces between two slashes and the segments determine each other. So the text
of the first segments of a pointer is itself a pointer, which resolves to just these segments. The
guard of a container names the pointer of the member that it tests.
-/

namespace Catalog

open Script Segment

namespace Pointer

/-- Segments start a list of segments exactly when their text is all of its text, or the text in
front of a slash. -/
theorem pointerText_prefix_iff {ss us : List Segment} (hs : ∀ s ∈ ss, s.IsRead)
    (hu : ∀ s ∈ us, s.IsRead) :
    us <+: ss ↔ pointerText ss = pointerText us ∨
      ∃ rest, pointerText ss = pointerText us ++ "/" ++ rest := by
  constructor
  · rintro ⟨more, rfl⟩
    cases more with
    | nil => exact .inl (by rw [List.append_nil])
    | cons s more =>
      refine .inr ⟨String.ofList (escapeChars s.text.toList ++ pointerChars more), ?_⟩
      rw [← String.toList_inj]
      simp [pointerText, pointerChars]
  · rintro (h | ⟨rest, h⟩)
    · obtain rfl := pointerText_inj hs hu h
      exact List.prefix_refl ss
    · have hpieces := congrArg (fun t => t.toList.splitOn '/') h
      have hslash : "/".toList = ['/'] := rfl
      simp only [pointerText, String.toList_ofList, String.toList_append, hslash,
        List.append_assoc, List.splitOn_append_cons_self, splitOn_pointerChars, List.cons_append,
        List.cons.injEq, true_and] at hpieces
      rw [← map_readPiece hs, ← map_readPiece hu, hpieces, List.map_append]
      exact List.prefix_append _ _

variable {p q : Pointer}

/-- The containers and the key of a pointer with the first segments of another one. -/
theorem parents_key_of_segments {depth : Nat} (hdepth : depth < p.parents.length)
    (h : q.segments = p.segments.take (depth + 1)) :
    q.parents = p.parents.take depth ∧ p.parents[depth]? = some q.key := by
  have hsegment : p.parents[depth]? = some p.parents[depth] := List.getElem?_eq_getElem hdepth
  rw [segments, segments, List.take_append_of_le_length hdepth, List.take_add_one, hsegment,
    Option.toList_some] at h
  obtain ⟨hparents, hkey⟩ := List.append_inj' h rfl
  rw [List.singleton_inj] at hkey
  exact ⟨hparents, by rw [hsegment, hkey]⟩

/-- The first segments of a resolved pointer make up a resolved pointer. -/
theorem Resolved.exists_ancestor (h : p.Resolved) {depth : Nat} (hpos : 0 < depth)
    (hle : depth ≤ p.segments.length) :
    ∃ q : Pointer, q.text = p.ancestorText depth ∧ q.segments = p.segments.take depth ∧
      q.Resolved := by
  have hne : p.segments.take depth ≠ [] := by
    rw [← List.length_pos_iff, List.length_take]
    omega
  have hsegments := segments_mk hne (p.ancestorText depth)
  refine ⟨⟨p.ancestorText depth, (p.segments.take depth).dropLast,
    (p.segments.take depth).getLast?.getD .append⟩, rfl, hsegments, ?_, ?_, ?_, ?_⟩
  · rw [hsegments]
    exact h.ancestorText_eq depth
  · rw [hsegments]
    exact fun s hs => h.isRead s (List.mem_of_mem_take hs)
  · intro hs
    have hparents : p.segments.dropLast = p.parents := by simp [segments]
    rw [List.dropLast_take_eq_take_dropLast, hparents] at hs
    exact h.append_notMem (List.mem_of_mem_take hs)
  · exact h.singleLine_ancestorText depth

end Pointer

namespace Patch.Emission

variable {p q : Pointer}

/-- The guard of a container tests a member and names its pointer, or it makes the container. -/
theorem ancestors_getElem? (create : Bool) {depth : Nat} (hdepth : depth < p.parents.length)
    (htext : q.text = p.ancestorText (depth + 1))
    (hsegments : q.segments = p.segments.take (depth + 1)) :
    (ancestors p create)[depth]? = some (presence q.container q.key q.text) ∨
      ∃ name, create = true ∧ q.key = .key name ∧
        (ancestors p create)[depth]? = some (creation q.container name) := by
  obtain ⟨hparents, hkey⟩ := Pointer.parents_key_of_segments hdepth hsegments
  have hguard : (ancestors p create)[depth]? = some (ancestor p create depth q.key) := by
    simp [ancestors, List.getElem?_zipIdx, hkey]
  rw [hguard, Pointer.container, hparents, htext]
  unfold ancestor
  split
  · next name hname => exact .inr ⟨name, rfl, hname, rfl⟩
  · exact .inl rfl

end Patch.Emission

namespace Pointer

open Patch

/-- Whether one pointer leads below another one can be told from their texts. The text of the first
segments of a pointer resolves to these segments, the pointer leads below it, and its accessor is
the one of these segments. The guards of a pointer's containers come in their order; each of them
tests the member of the pointer that it names, unless it makes the container and names none. -/
theorem within_by_text :
    (∀ a b p q, resolve a = .ok p → resolve b = .ok q →
      (p.isWithin q = true ↔ a = b ∨ ∃ rest, a = b ++ "/" ++ rest)) ∧
    ∀ a p, resolve a = .ok p →
      (∀ depth, 1 ≤ depth → depth ≤ p.segments.length →
        ∃ q, resolve (p.ancestorText depth) = .ok q ∧ q.segments = p.segments.take depth ∧
          p.isWithin q = true ∧ q.accessor.text = (chain (p.segments.take depth)).text) ∧
      ∀ create, (Emission.ancestors p create).length = p.parents.length ∧
        ∀ depth < p.parents.length, ∃ q, resolve (p.ancestorText (depth + 1)) = .ok q ∧
          q.container = chain (p.parents.take depth) ∧ p.parents[depth]? = some q.key ∧
          ((Emission.ancestors p create)[depth]? =
              some (Emission.presence q.container q.key q.text) ∨
            ∃ name, create = true ∧ q.key = .key name ∧
              (Emission.ancestors p create)[depth]? =
                some (Emission.creation q.container name)) := by
  refine ⟨fun a b p q hresolve hresolve' => ?_, fun a p hresolve => ?_⟩
  · obtain ⟨rfl, hp⟩ := resolve_eq_ok hresolve
    obtain ⟨rfl, hq⟩ := resolve_eq_ok hresolve'
    rw [isWithin, List.isPrefixOf_iff_prefix, pointerText_prefix_iff hp.isRead hq.isRead,
      ← hp.text_eq, ← hq.text_eq]
  · obtain ⟨rfl, hp⟩ := resolve_eq_ok hresolve
    refine ⟨fun depth hpos hle => ?_, fun create => ⟨by simp [Emission.ancestors], ?_⟩⟩
    · obtain ⟨q, htext, hsegments, hq⟩ := hp.exists_ancestor hpos hle
      refine ⟨q, htext ▸ hq.resolve_text, hsegments, ?_, ?_⟩
      · rw [isWithin, List.isPrefixOf_iff_prefix, hsegments]
        exact List.take_prefix depth p.segments
      · rw [accessor_eq_chain, hsegments]
    · intro depth hdepth
      have hle : depth + 1 ≤ p.segments.length := by
        rw [segments, List.length_append]
        omega
      obtain ⟨q, htext, hsegments, hq⟩ := hp.exists_ancestor (Nat.succ_pos depth) hle
      obtain ⟨hparents, hkey⟩ := parents_key_of_segments hdepth hsegments
      exact ⟨q, htext ▸ hq.resolve_text, by rw [container, hparents], hkey,
        Emission.ancestors_getElem? create hdepth htext hsegments⟩

/-- An empty name is a segment like any other, and an escaped slash separates none. -/
theorem within_by_text_empty_name :
    ∃ p q, resolve "/a//b~1c/-" = .ok p ∧ resolve "/a/" = .ok q ∧ p.isWithin q = true ∧
      (1 ≤ 3 ∧ 3 ≤ p.segments.length ∧ ∃ r, resolve (p.ancestorText 3) = .ok r ∧
        r.segments = [.key "a", .key "", .key "b/c"] ∧ p.isWithin r = true) ∧
      2 < p.parents.length ∧ ∃ r, resolve (p.ancestorText 3) = .ok r ∧
        (Emission.ancestors p false)[2]? =
          some (Emission.presence (chain [.key "a", .key ""]) r.key r.text) := by
  have hpromises : (Pointer.mk "/a//b~1c/-" [.key "a", .key "", .key "b/c"] .append).Resolved :=
    ⟨by decide, by decide, by decide, by decide⟩
  have hpromises' : (Pointer.mk "/a/" [.key "a"] (.key "")).Resolved :=
    ⟨by decide, by decide, by decide, by decide⟩
  have hp := hpromises.resolve_text
  have hq := hpromises'.resolve_text
  obtain ⟨hancestor, hguards⟩ := within_by_text.2 _ _ hp
  refine ⟨_, _, hp, hq, (within_by_text.1 _ _ _ _ hp hq).2 (.inr ⟨"b~1c/-", by decide⟩), ?_, ?_⟩
  · obtain ⟨r, hr, hsegments, hwithin, -⟩ := hancestor 3 (by decide) (by decide)
    exact ⟨by decide, by decide, r, hr, hsegments, hwithin⟩
  · obtain ⟨r, hr, hcontainer, -, hguard⟩ := (hguards false).2 2 (by decide)
    refine ⟨by decide, r, hr, ?_⟩
    rcases hguard with hguard | ⟨-, hcreate, -⟩
    · exact hcontainer ▸ hguard
    · exact absurd hcreate (by decide)

end Pointer

end Catalog
