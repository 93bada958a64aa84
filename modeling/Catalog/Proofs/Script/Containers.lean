import Catalog.Script.Accessor
import Catalog.Script.Statement
import Mathlib.Data.List.Induction
import Mathlib.Tactic.Tauto

/-!
# The containers that a script goes through

Evaluating an expression asks containers for their members, their sizes and their kinds. Where a
container is missing, or is no container at all, this goes wrong. The containers that an accessor of
segments goes through are those that its first segments lead to.
-/

namespace Catalog

open Script

namespace Script

namespace Expr

/-- The containers that evaluating an expression goes through. -/
def containers : Expr → List Expr
  | source => []
  | param _ => []
  | binding _ => []
  | quoted _ => []
  | count _ => []
  | newMap => []
  | field c _ => c :: c.containers
  | item c k => c :: (c.containers ++ k.containers)
  | size c => c :: c.containers
  | minus a b => a.containers ++ b.containers
  | plus a b => a.containers ++ b.containers
  | containsKey c k => c :: (c.containers ++ k.containers)
  | isList c => c :: c.containers
  | greater a b => a.containers ++ b.containers
  | atLeast a b => a.containers ++ b.containers
  | differs a b => a.containers ++ b.containers
  | not a => a.containers
  | and a b => a.containers ++ b.containers
  | or a b => a.containers ++ b.containers
  | choose c a b => c.containers ++ a.containers ++ b.containers

end Expr

/-- The containers that a removal goes through, the one it takes a member away from among them. -/
def Removal.containers : Removal → List Expr
  | remove c k => c :: (c.containers ++ k.containers)
  | choose c a b => c.containers ++ a.containers ++ b.containers

/-- The containers that a statement goes through, those it writes to among them. -/
def Statement.containers : Statement → List Expr
  | when c body => c.containers ++ body.containers
  | branch c a b => c.containers ++ a.containers ++ b.containers
  | explain reason => reason.containers
  | assign place value => place.containers ++ value.containers
  | insert list index value => list :: (list.containers ++ index.containers ++ value.containers)
  | overwrite list index value => list :: (list.containers ++ index.containers ++ value.containers)
  | discard removal => removal.containers
  | define _ removal => removal.containers

end Script

namespace Segment

variable {base c : Expr} {s : Segment} {path : List Segment}

attribute [local simp] Expr.containers

theorem containers_of_accessor (h : c ∈ (s.accessor base).containers) :
    c = base ∨ c ∈ base.containers := by
  cases s with
  | key name =>
    simp only [accessor] at h
    split at h
    · simpa using h
    · simpa using h
  | _ =>
    simp only [accessor, selector, Expr.containers, List.mem_append, List.mem_cons,
      List.not_mem_nil, or_false] at h
    tauto

/-- The member of a container is reached through this container. -/
theorem base_mem_accessor : base ∈ (s.accessor base).containers := by
  cases s with
  | key name =>
    rw [accessor]
    split
    · simp
    · simp
  | _ => simp [accessor]

theorem containers_of_selector (h : c ∈ (s.selector base).containers) :
    c = base ∨ c ∈ base.containers := by
  cases s with
  | key name => simp [selector] at h
  | position n => simp [selector] at h
  | _ => simpa [selector] using h

theorem containers_of_isPresent (h : c ∈ (s.isPresent base).containers) :
    c = base ∨ c ∈ base.containers := by
  cases s with
  | _ =>
    simp only [isPresent, Expr.containers, List.mem_append, List.mem_cons, List.not_mem_nil,
      or_false] at h
    tauto

theorem containers_of_isInsertable (h : c ∈ (s.isInsertable base).containers) :
    c = base ∨ c ∈ base.containers := by
  unfold isInsertable at h
  split at h
  · simp only [Expr.containers, List.mem_append, List.mem_cons, List.not_mem_nil, or_false] at h
    tauto
  · exact containers_of_isPresent h

theorem base_mem_isPresent : base ∈ (s.isPresent base).containers := by
  cases s with
  | _ => simp [isPresent]

theorem base_mem_isInsertable : base ∈ (s.isInsertable base).containers := by
  unfold isInsertable
  split
  · simp
  · exact base_mem_isPresent

/-- The first segments of a path lead to this container. -/
def OnPath (path : List Segment) (c : Expr) : Prop := ∃ above, above <+: path ∧ c = chain above

theorem OnPath.mono {below : List Segment} (h : OnPath path c) (hpath : path <+: below) :
    OnPath below c := by
  obtain ⟨above, habove, rfl⟩ := h
  exact ⟨above, habove.trans hpath, rfl⟩

/-- A chain goes through nothing but the containers on its path. -/
theorem onPath_of_mem_containers (h : c ∈ (chain path).containers) : OnPath path c := by
  induction path using List.reverseRecOn with
  | nil => simp [chain] at h
  | append_singleton path s ih =>
    rw [chain_append_singleton] at h
    have hpath : path <+: path ++ [s] := List.prefix_append path [s]
    rcases containers_of_accessor h with rfl | h
    · exact ⟨path, hpath, rfl⟩
    · exact (ih h).mono hpath

/-- The end of a path and everything that is gone through on the way there is on the path. -/
theorem onPath_of_base (h : c = chain path ∨ c ∈ (chain path).containers) : OnPath path c := by
  rcases h with rfl | h
  · exact ⟨path, List.prefix_refl path, rfl⟩
  · exact onPath_of_mem_containers h

theorem accessor_ne_source : s.accessor base ≠ .source := by
  cases s with
  | key name =>
    rw [accessor]
    split
    · simp
    · simp
  | _ => simp [accessor]

/-- Different members of containers are reached by different accessors. -/
theorem accessor_inj {base' : Expr} {s' : Segment} (h : s.accessor base = s'.accessor base') :
    base = base' ∧ s = s' := by
  cases s with
  | key name =>
    cases s' with
    | key name' =>
      simp only [accessor] at h
      split at h <;> split at h <;> simp_all
    | _ => grind [accessor, selector]
  | position n => cases s' <;> grind [accessor, selector]
  | fromEnd n => cases s' <;> grind [accessor, selector]
  | append => cases s' <;> grind [accessor, selector]

/-- A container is reached by one path alone. -/
theorem chain_injective : Function.Injective chain := by
  intro path path' h
  induction path using List.reverseRecOn generalizing path' with
  | nil =>
    rcases List.eq_nil_or_concat path' with rfl | ⟨above', s', rfl⟩
    · rfl
    · rw [List.concat_eq_append, chain_append_singleton] at h
      exact absurd h.symm accessor_ne_source
  | append_singleton above s ih =>
    rcases List.eq_nil_or_concat path' with rfl | ⟨above', s', rfl⟩
    · rw [chain_append_singleton] at h
      exact absurd h accessor_ne_source
    · rw [List.concat_eq_append, chain_append_singleton, chain_append_singleton] at h
      obtain ⟨habove, rfl⟩ := accessor_inj h
      rw [ih habove, List.concat_eq_append]

end Segment

end Catalog
