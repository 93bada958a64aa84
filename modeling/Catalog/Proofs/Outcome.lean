import Mathlib.Data.List.Forall2

/-!
# Outcomes of steps that can fail

A step that follows another one succeeds exactly when both do. Going through a list item by item
succeeds exactly when every item does, and then the results stand in the order of the items. When it
fails, the error is that of the first item that fails. Two runs are alike when they succeed with the
same result, or fail with errors of one kind.
-/

namespace Catalog.Outcome

variable {ε α β : Type}

theorem bind_eq_ok_iff {x : Except ε α} {f : α → Except ε β} {b : β} :
    (x >>= f) = .ok b ↔ ∃ a, x = .ok a ∧ f a = .ok b := by
  cases x with
  | error e => simp [bind, Except.bind]
  | ok a => simp [bind, Except.bind]

theorem map_eq_ok_iff {x : Except ε α} {f : α → β} {b : β} :
    x.map f = .ok b ↔ ∃ a, x = .ok a ∧ f a = b := by
  cases x with
  | error e => simp [Except.map]
  | ok a => simp [Except.map]

theorem map_map {γ : Type} (x : Except ε α) (f : α → β) (g : β → γ) :
    (x.map f).map g = x.map fun a => g (f a) := by
  cases x with
  | error e => rfl
  | ok a => rfl

theorem mapM_eq_ok_iff {f : α → Except ε β} {xs : List α} {ys : List β} :
    xs.mapM f = .ok ys ↔ List.Forall₂ (fun x y => f x = .ok y) xs ys := by
  induction xs generalizing ys with
  | nil =>
    rw [List.mapM_nil]
    constructor
    · intro h
      cases h
      exact .nil
    · intro h
      cases h
      rfl
  | cons x xs ih =>
    rw [List.mapM_cons, bind_eq_ok_iff]
    constructor
    · rintro ⟨y, hy, h⟩
      obtain ⟨zs, hz, h⟩ := bind_eq_ok_iff.1 h
      cases h
      exact .cons hy (ih.1 hz)
    · intro h
      cases h with
      | cons hy hz => exact ⟨_, hy, bind_eq_ok_iff.2 ⟨_, ih.2 hz, rfl⟩⟩

theorem exists_of_mapM_singleton {f : α → Except ε β} {x : α} {ys : List β}
    (h : [x].mapM f = .ok ys) : ∃ y, f x = .ok y ∧ ys = [y] := by
  cases mapM_eq_ok_iff.1 h with
  | cons hy hnil =>
    cases hnil
    exact ⟨_, hy, rfl⟩

theorem bind_eq_error_iff {x : Except ε α} {f : α → Except ε β} {e : ε} :
    (x >>= f) = .error e ↔ x = .error e ∨ ∃ a, x = .ok a ∧ f a = .error e := by
  cases x with
  | error e' => simp [bind, Except.bind]
  | ok a => simp [bind, Except.bind]

/-- A step that cannot fail has no part in an error. -/
theorem bind_pure_eq_error_iff {x : Except ε α} {f : α → β} {e : ε} :
    (x >>= fun a => pure (f a)) = .error e ↔ x = .error e := by
  rw [bind_eq_error_iff]
  constructor
  · rintro (h | ⟨_, -, h⟩)
    · exact h
    · cases h
  · exact .inl

/-- The error is that of the first item that fails, whatever the items behind it are. -/
theorem mapM_eq_error_iff {f : α → Except ε β} {xs : List α} {e : ε} :
    xs.mapM f = .error e ↔ ∃ before x after, xs = before ++ x :: after ∧
      (∀ y ∈ before, ∃ b, f y = .ok b) ∧ f x = .error e := by
  induction xs with
  | nil =>
    rw [List.mapM_nil]
    constructor
    · intro h
      cases h
    · rintro ⟨before, x, after, hsplit, -⟩
      simp at hsplit
  | cons x xs ih =>
    rw [List.mapM_cons, bind_eq_error_iff]
    constructor
    · rintro (hx | ⟨y, hy, h⟩)
      · exact ⟨[], x, xs, rfl, by simp, hx⟩
      · rcases bind_eq_error_iff.1 h with h | ⟨ys, -, h⟩
        · obtain ⟨before, z, after, rfl, hbefore, hz⟩ := ih.1 h
          exact ⟨x :: before, z, after, rfl, List.forall_mem_cons.2 ⟨⟨y, hy⟩, hbefore⟩, hz⟩
        · cases h
    · rintro ⟨before, z, after, hsplit, hbefore, hz⟩
      cases before with
      | nil =>
        obtain ⟨rfl, -⟩ := List.cons.inj hsplit
        exact .inl hz
      | cons w before =>
        obtain ⟨rfl, rfl⟩ := List.cons.inj hsplit
        obtain ⟨⟨y, hy⟩, hbefore⟩ := List.forall_mem_cons.1 hbefore
        exact .inr ⟨y, hy, bind_eq_error_iff.2 (.inl (ih.2 ⟨before, z, after, rfl, hbefore, hz⟩))⟩

theorem exists_eq_ok_iff {x : Except ε α} : (∃ a, x = .ok a) ↔ ∀ e, x ≠ .error e := by
  cases x with
  | error e => simp
  | ok a => simp

theorem mapM_singleton_eq_error_iff {f : α → Except ε β} {x : α} {e : ε} :
    [x].mapM f = .error e ↔ f x = .error e := by
  simp only [List.mapM_cons, List.mapM_nil, pure_bind, bind_pure_eq_error_iff]

/-- A list fails as its first part does, or behind a first part without failures as its second. -/
theorem mapM_append_eq_error_iff {f : α → Except ε β} {xs ys : List α} {e : ε} :
    (xs ++ ys).mapM f = .error e ↔
      xs.mapM f = .error e ∨ (∃ zs, xs.mapM f = .ok zs) ∧ ys.mapM f = .error e := by
  rw [List.mapM_append, bind_eq_error_iff]
  simp only [bind_pure_eq_error_iff, exists_and_right]

theorem exists_mapM_eq_ok_iff {f : α → Except ε β} {xs : List α} :
    (∃ ys, xs.mapM f = .ok ys) ↔ ∀ x ∈ xs, ∃ y, f x = .ok y := by
  constructor
  · rintro ⟨ys, h⟩ x hx
    obtain ⟨before, after, rfl⟩ := List.append_of_mem hx
    rw [List.mapM_append] at h
    obtain ⟨_, -, h⟩ := bind_eq_ok_iff.1 h
    obtain ⟨_, h, -⟩ := bind_eq_ok_iff.1 h
    rw [List.mapM_cons] at h
    obtain ⟨y, hy, -⟩ := bind_eq_ok_iff.1 h
    exact ⟨y, hy⟩
  · intro h
    cases hm : xs.mapM f with
    | ok ys => exact ⟨ys, rfl⟩
    | error e =>
      obtain ⟨before, x, after, rfl, -, hx⟩ := mapM_eq_error_iff.1 hm
      obtain ⟨y, hy⟩ := h x (by simp)
      rw [hx] at hy
      cases hy

/-- What changes the items before they are gone through can as well change the results. -/
theorem mapM_map_comm {f : α → Except ε β} {g : α → α} {k : β → β} (h : ∀ x, f (g x) = k <$> f x)
    (xs : List α) : (xs.map g).mapM f = List.map k <$> xs.mapM f := by
  induction xs with
  | nil => rfl
  | cons x xs ih =>
    rw [List.map_cons, List.mapM_cons, List.mapM_cons, h, ih]
    simp only [bind_map_left, map_bind, map_pure, List.map_cons]

/-- Every result comes from an item. -/
theorem exists_of_mem_mapM {f : α → Except ε β} {xs : List α} {ys : List β}
    (h : xs.mapM f = .ok ys) {y : β} (hy : y ∈ ys) : ∃ x ∈ xs, f x = .ok y := by
  have hall := mapM_eq_ok_iff.1 h
  clear h
  induction hall with
  | nil => simp at hy
  | cons hf _ ih =>
    rcases List.mem_cons.1 hy with rfl | hy
    · exact ⟨_, List.mem_cons_self .., hf⟩
    · obtain ⟨x, hx, hfx⟩ := ih hy
      exact ⟨x, List.mem_cons_of_mem _ hx, hfx⟩

/-- A list that is put together from parts is gone through part by part. -/
theorem mapM_flatMap {γ : Type} {f : α → Except ε β} {g : γ → List α} (xs : List γ) :
    (xs.flatMap g).mapM f = List.flatten <$> xs.mapM fun x => (g x).mapM f := by
  induction xs with
  | nil => rfl
  | cons x xs ih =>
    rw [List.flatMap_cons, List.mapM_append, List.mapM_cons, ih]
    simp only [bind_map_left, map_bind, map_pure, List.flatten_cons]

/-- Both succeed with the same result, or both fail with errors that have the same label. -/
inductive Alike {κ : Type} (label : ε → κ) : Except ε α → Except ε α → Prop where
  | ok (a : α) : Alike label (.ok a) (.ok a)
  | error {e e' : ε} (h : label e = label e') : Alike label (.error e) (.error e')

section

variable {κ : Type} {label : ε → κ} {x y z : Except ε α}

theorem Alike.refl (x : Except ε α) : Alike label x x := by
  cases x with
  | ok a => exact .ok a
  | error e => exact .error rfl

theorem Alike.trans (hxy : Alike label x y) (hyz : Alike label y z) : Alike label x z := by
  cases hxy with
  | ok a => exact hyz
  | error h =>
    cases hyz with
    | error h' => exact .error (h.trans h')

/-- Steps that are alike are so with the same step behind them. -/
theorem Alike.bind (h : Alike label x y) (f : α → Except ε β) :
    Alike label (x >>= f) (y >>= f) := by
  cases h with
  | ok a => exact .refl _
  | error h => exact .error h

/-- Lists are gone through alike when each item is. -/
theorem alike_mapM {γ : Type} {f : γ → Except ε α} {xs ys : List γ}
    (h : List.Forall₂ (fun x y => Alike label (f x) (f y)) xs ys) :
    Alike label (xs.mapM f) (ys.mapM f) := by
  induction h with
  | nil => exact .refl _
  | cons hfirst _ ih =>
    rw [List.mapM_cons, List.mapM_cons]
    generalize f _ = x at hfirst
    generalize f _ = y at hfirst
    cases hfirst with
    | ok a => exact ih.bind _
    | error h => exact .error h

end

end Catalog.Outcome
