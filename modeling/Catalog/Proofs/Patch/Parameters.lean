import Catalog.Patch.Script
import Catalog.Proofs.Text.Separated
import Mathlib.Data.List.Basic

/-!
# The parameters of a script

The parameter of an edit is named after its pointer and numbered like the edit. The number stands
behind the last underscore of the name, so no two edits of a script name the same parameter, and
each finds its own value.
-/

namespace Catalog.Patch

namespace Edit

/-- The number of an edit can be told from the name that it uses. -/
theorem localName_inj {p q : Pointer} {m n : Nat} (h : localName p m = localName q n) : m = n := by
  have hdigits (k : Nat) : '_' ∉ (Nat.repr k).toList := by
    intro hc
    rw [Nat.toList_repr] at hc
    have hd := Nat.isDigit_of_mem_toDigits (by decide) (by decide) hc
    exact absurd hd (by decide)
  have hchars (p : Pointer) (k : Nat) :
      (localName p k).toList = p.variableName.toList ++ '_' :: (Nat.repr k).toList := by
    simp [localName]
  have hlists := congrArg String.toList h
  rw [hchars, hchars] at hlists
  have hrepr := Text.eq_of_append_cons_eq (hdigits m) (hdigits n) hlists
  rw [Nat.toList_repr, Nat.toList_repr] at hrepr
  calc
    m = Nat.ofDigitChars 10 (Nat.toDigits 10 m) 0 := Nat.ofDigitChars_ten_toDigits.symm
    _ = Nat.ofDigitChars 10 (Nat.toDigits 10 n) 0 := by rw [hrepr]
    _ = n := Nat.ofDigitChars_ten_toDigits

theorem name_of_parameter? {edit : Edit} {index : Nat} {name : String} {value : Json}
    (h : edit.parameter? index = some (name, value)) : ∃ p, name = localName p index := by
  cases edit with
  | add p v =>
    cases h
    exact ⟨p, rfl⟩
  | replace p v =>
    cases h
    exact ⟨p, rfl⟩
  | test p v =>
    cases h
    exact ⟨p, rfl⟩
  | _ => simp [parameter?] at h

end Edit

/-- Names that are told from the numbers of edits are told apart. -/
theorem nodup_names {f : Edit × Nat → Option String}
    (hf : ∀ edit name, f edit = some name → ∃ p, name = Edit.localName p edit.2)
    (edits : List Edit) : (edits.zipIdx.filterMap f).Nodup := by
  have hnumbers : edits.zipIdx.Pairwise fun a b => a.2 ≠ b.2 := by
    rw [← List.pairwise_map, List.zipIdx_map_snd]
    exact List.nodup_range'
  rw [List.Nodup, List.pairwise_filterMap]
  refine hnumbers.imp fun {a b} hne name hname name' hname' hsame => hne ?_
  obtain ⟨p, hp⟩ := hf a name hname
  obtain ⟨q, hq⟩ := hf b name' hname'
  exact Edit.localName_inj (hp.symm.trans (hsame.trans hq))

/-- No two parameters of a script have the same name. -/
theorem nodup_parameterNames (edits : List Edit) : ((parameters edits).map Prod.fst).Nodup := by
  rw [parameters, List.map_filterMap]
  refine nodup_names (fun edit name hname => ?_) edits
  obtain ⟨⟨_, value⟩, hvalue, rfl⟩ := Option.map_eq_some_iff.1 hname
  exact Edit.name_of_parameter? hvalue

/-- The parameter of an edit has its value in the script. -/
theorem lookup_parameters {edits : List Edit} {index : Nat} {edit : Edit}
    (he : edits[index]? = some edit) {name : String} {value : Json}
    (h : edit.parameter? index = some (name, value)) :
    (parameters edits).lookup name = some value := by
  have hmem : (name, value) ∈ parameters edits :=
    List.mem_filterMap.2 ⟨(edit, index), List.mk_mem_zipIdx_iff_getElem?.2 he, h⟩
  obtain ⟨before, after, hsplit⟩ := List.append_of_mem hmem
  refine List.lookup_eq_some_iff.2 ⟨before, after, hsplit, fun other hother => ?_⟩
  have hnodup := nodup_parameterNames edits
  rw [hsplit, List.map_append, List.map_cons, List.nodup_append] at hnodup
  exact bne_iff_ne.2 (hnodup.2.2 other.1 (List.mem_map_of_mem hother) name
    (List.mem_cons_self ..)).symm

end Catalog.Patch
