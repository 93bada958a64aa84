import Catalog.Proofs.Json.Merge
import Catalog.Proofs.Patch.Effects
import Catalog.Proofs.Pointer.Keys

/-!
# Making containers

A script that makes missing containers goes down the names of a pointer and puts an empty map where
nothing is there yet. Such a guard is left out when one with the same line is in force. Its line
determines the names that it is about, and what it made is still open as long as no removal came
after it, so making it again would change nothing.
-/

namespace Catalog

open Catalog.Script Segment

namespace Json

/-- Keys lead from one object into the next. -/
theorem get?_keys (path : List String) (j : Json) : j.get? (keys path) = j.getIn? path := by
  induction path generalizing j with
  | nil => rfl
  | cons name path ih =>
    have hchild : j.child? (.key name) = j.membersOf.lookup name := by
      cases j with
      | object members => rfl
      | _ => simp [child?, membersOf, element?]
    rw [keys, List.map_cons, get?, hchild, getIn?, Option.bind_eq_bind]
    exact congrArg _ (funext ih)

/-- A change of the object that keys lead to is an update. -/
theorem modify?_keys {path : List String} {j : Json} {members : List (String × Json)}
    (h : j.getIn? path = some (.object members)) {change : Json → Option Json}
    {f : List (String × Json) → List (String × Json)}
    (hchange : change (.object members) = some (.object (f members))) :
    j.modify? change (keys path) = some (updateIn f path j) := by
  induction path generalizing j with
  | nil =>
    obtain rfl : j = .object members := by simpa [getIn?] using h
    exact hchange
  | cons name path ih =>
    obtain ⟨w, hw, hbelow⟩ := Option.bind_eq_some_iff.1 h
    obtain ⟨outer, rfl⟩ : ∃ outer, j = .object outer := ⟨_, eq_object_of_lookup hw⟩
    rw [membersOf_object] at hw
    rw [keys, List.map_cons, modify?, child?_key, hw, Option.bind_eq_bind, Option.bind_some, ← keys,
      ih hbelow]
    simp [replaceChild?, memberName?, updateIn, hw]

end Json

namespace Patch

namespace Emission

variable {d : Dialect} {σ : State}

/-- The guards that make what is missing below an object, name by name. -/
def creationsFrom : List String → List String → List Emission
  | _, [] => []
  | above, name :: rest => creation (chain (keys above)) name :: creationsFrom (above ++ [name]) rest

/-- The guards of the containers of a member, name by name. -/
theorem ancestors_ofKeys (above : List String) (name : String) :
    ancestors (.ofKeys above name) true = creationsFrom [] above := by
  have hfrom (before rest : List String) (h : above = before ++ rest) :
      ((keys rest).zipIdx before.length).map
          (fun s => ancestor (.ofKeys above name) true s.2 s.1) =
        creationsFrom before rest := by
    induction rest generalizing before with
    | nil => rfl
    | cons n rest ih =>
      have htake : (keys above).take before.length = keys before := by
        rw [h, keys_append, List.take_left' (by simp [keys])]
      have hrest := ih (before ++ [n]) (by simp [h])
      rw [List.length_append, List.length_singleton] at hrest
      rw [keys, List.map_cons, List.zipIdx_cons, List.map_cons, ← keys, hrest, creationsFrom]
      dsimp only [ancestor, Pointer.ofKeys]
      rw [htake]
  exact hfrom [] above rfl

/-- A guard that makes a container opens it, where its name leads to an object or nowhere. -/
theorem exec_creation_of_open {above : List String} {name : String}
    (habove : σ.document.IsOpen above) (hadmits : σ.document.Admits (above ++ [name])) :
    (creation (chain (keys above)) name).statement.exec d σ =
      some { σ with document := σ.document.updateIn id (above ++ [name]) } := by
  have hkeys : keys above ++ [.key name] = keys (above ++ [name]) := by simp [keys]
  rw [exec_creation, hkeys, Json.get?_keys]
  split
  · next h =>
    obtain ⟨w, hw⟩ := Option.isSome_iff_exists.1 h
    obtain ⟨inner, rfl⟩ := hadmits _ (List.prefix_refl _) w hw
    rw [Json.updateIn_id_of_isOpen ⟨inner, hw⟩]
  · next h =>
    obtain ⟨members, hmembers⟩ := habove
    have hadd : σ.document.modify? (Json.addChild? (.object []) (.key name)) (keys above) =
        some (σ.document.updateIn (Json.put name (.object [])) above) :=
      Json.modify?_keys hmembers rfl
    have hlookup : members.lookup name = none := by
      rw [Json.getIn?_append, hmembers] at h
      simpa only [Json.getIn?, Json.membersOf, Option.bind_some, Option.bind_eq_bind,
        Option.bind_fun_some, Option.not_isSome_iff_eq_none] using h
    have hupdate : σ.document.updateIn (Json.put name (.object [])) above =
        σ.document.updateIn id (above ++ [name]) := by
      rw [Json.updateIn_append]
      refine Json.updateIn_congr hmembers ?_
      simp [Json.updateIn, hlookup, Json.membersOf]
    rw [hadd, hupdate, State.withDocument_some]

/-- Every guard in force made a container that is open, on the way to one of the given objects. -/
def ForcesOpen (tops : List (List String)) (before : List Emission) (j : Json) : Prop :=
  ∀ line, InForce line before → ∃ above name,
    (creation (chain (keys above)) name).statement.WellWritten ∧
      line = (creation (chain (keys above)) name).statement.text ∧
      j.IsOpen (above ++ [name]) ∧ ∃ top ∈ tops, above ++ [name] <+: top

/-- Making one more container opens it and leaves the others open. -/
theorem ForcesOpen.append_creation {tops : List (List String)} {before : List Emission} {j : Json}
    (h : ForcesOpen tops before j) {above : List String} {name : String}
    (hw : (creation (chain (keys above)) name).statement.WellWritten)
    (htop : ∃ top ∈ tops, above ++ [name] <+: top) :
    ForcesOpen tops (before ++ [creation (chain (keys above)) name])
      (j.updateIn id (above ++ [name])) := by
  intro line hline
  rw [inForce_append_singleton] at hline
  rcases hline.2 with ⟨-, rfl⟩ | hline
  · exact ⟨above, name, hw, hw.normalize_text, Json.isOpen_updateIn_above id
      (List.prefix_refl _) j, htop⟩
  · obtain ⟨above', name', hw', htext, hopen, htop'⟩ := h line hline
    exact ⟨above', name', hw', htext, hopen.updateIn fun _ _ _ _ => rfl, htop'⟩

/-- Making a container does the same when it is left out because one in force has its line. -/
theorem exec_withoutRepeats_creation {tops : List (List String)} {before : List Emission}
    (hforce : ForcesOpen tops before σ.document) {above : List String} {name : String}
    (hw : (creation (chain (keys above)) name).statement.WellWritten)
    (habove : σ.document.IsOpen above) (hadmits : σ.document.Admits (above ++ [name])) :
    exec d ((withoutRepeats before [creation (chain (keys above)) name]).map Emission.statement) σ =
      some { σ with document := σ.document.updateIn id (above ++ [name]) } := by
  rw [withoutRepeats]
  split
  · next hrepeat =>
    obtain ⟨above', name', hw', htext, hopen, -⟩ := hforce _ hrepeat.2
    rw [Emission.line, hw.normalize_text] at htext
    obtain ⟨habove, rfl⟩ := creation_text_inj htext
    obtain rfl := keys_injective habove
    rw [Json.updateIn_id_of_isOpen hopen]
    rfl
  · exact (exec_singleton _).trans (exec_creation_of_open habove hadmits)

/-- Making containers name by name opens all of them, whichever of the guards are left out. -/
theorem exec_creationsFrom (σ : State) {tops : List (List String)} {above rest : List String}
    (hw : ∀ e ∈ creationsFrom above rest, e.statement.WellWritten) (htop : above ++ rest ∈ tops)
    {before : List Emission} (hforce : ForcesOpen tops before σ.document)
    (habove : σ.document.IsOpen above) (hadmits : σ.document.Admits (above ++ rest)) :
    exec d ((withoutRepeats before (creationsFrom above rest)).map Emission.statement) σ =
        some { σ with document := σ.document.updateIn id (above ++ rest) } ∧
      ForcesOpen tops (before ++ creationsFrom above rest)
        (σ.document.updateIn id (above ++ rest)) := by
  induction rest generalizing above before σ with
  | nil =>
    rw [List.append_nil, Json.updateIn_id_of_isOpen habove, creationsFrom, List.append_nil]
    exact ⟨rfl, hforce⟩
  | cons name rest ih =>
    obtain ⟨hfirst, hw⟩ := List.forall_mem_cons.1 hw
    have hsplit : above ++ name :: rest = (above ++ [name]) ++ rest := by simp
    rw [hsplit] at htop hadmits
    have hway : ∃ top ∈ tops, above ++ [name] <+: top := ⟨_, htop, List.prefix_append _ _⟩
    have hstep := exec_withoutRepeats_creation (d := d) hforce hfirst habove
      fun q hq => hadmits q (hq.trans (List.prefix_append _ _))
    have hnext := ih { σ with document := σ.document.updateIn id (above ++ [name]) } hw htop
      (hforce.append_creation hfirst hway)
      (Json.isOpen_updateIn_above id (List.prefix_refl _) _)
      (hadmits.updateIn fun _ _ _ _ => rfl)
    dsimp only at hnext
    rw [Json.updateIn_append_updateIn_id, ← hsplit] at hnext
    have hemissions : creationsFrom above (name :: rest) =
        [creation (chain (keys above)) name] ++ creationsFrom (above ++ [name]) rest := rfl
    rw [hemissions, withoutRepeats_append, List.map_append, exec_append, hstep, Option.bind_some,
      ← List.append_assoc]
    exact hnext

end Emission

end Patch

end Catalog
