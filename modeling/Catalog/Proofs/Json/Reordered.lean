import Catalog.Proofs.Json.Leaves

/-!
# Values with members in another order

The members of one object are put in another order, anywhere in a value. Where no object holds a
name twice, that stays so.
-/

namespace Catalog.Json

/-- The members of one object stand in another order, at any depth. -/
inductive Reordered : Json → Json → Prop where
  | here {members others : List (String × Json)} (h : members.Perm others) :
    Reordered (.object members) (.object others)
  | member (before after : List (String × Json)) (name : String) {v w : Json}
    (h : Reordered v w) :
    Reordered (.object (before ++ (name, v) :: after)) (.object (before ++ (name, w) :: after))
  | item (before after : List Json) {v w : Json} (h : Reordered v w) :
    Reordered (.array (before ++ v :: after)) (.array (before ++ w :: after))

/-- A name that stands once in an object still does so in another order. -/
theorem Reordered.namesOnce {v w : Json} (h : Reordered v w) (hv : NamesOnce v) : NamesOnce w := by
  induction h with
  | here hperm =>
    cases hv with
    | scalar hscalar => exact absurd rfl (hscalar _)
    | object hnames hvalues =>
      exact .object ((hperm.map Prod.fst).nodup_iff.1 hnames)
        fun m hm => hvalues m (hperm.mem_iff.2 hm)
  | member before after name _ ih =>
    cases hv with
    | scalar hscalar => exact absurd rfl (hscalar _)
    | object hnames hvalues =>
      refine .object (by simpa using hnames) ?_
      rw [List.forall_mem_append, List.forall_mem_cons] at hvalues ⊢
      exact ⟨hvalues.1, ih hvalues.2.1, hvalues.2.2⟩
  | item before after _ ih => exact .scalar fun members => by simp

end Catalog.Json
