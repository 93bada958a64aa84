import Catalog.Proofs.Access.Indices

/-!
# Who may see a document

A document is visible to a caller exactly when it is for everyone or one of the caller's principals
shares its index with a principal of the document. So nobody who is listed is ever turned away, and
only a shared index lets anybody else in. The union of two bitstrings is visible to whoever sees one
of them, and it is the union of sets. So neither the order of the groups of a document nor their
repetition matters, and the groups of two documents may as well be put together first.
-/

namespace Catalog

namespace IndexSet

variable {hash : String → UInt64} {x y : IndexSet} {i size : Nat}

theorem mem_put_true {j : Nat} : j ∈ (x.put i true).indices ↔ j ∈ x.indices ∨ j = i := by
  rw [mem_put]
  by_cases hj : j = i
  · simp [hj]
  · simp [hj]

theorem mem_add {principal : String} :
    i ∈ (x.add hash principal).indices ↔ i ∈ x.indices ∨ i = x.place hash principal :=
  mem_put_true

theorem mem_setPublic_true :
    i ∈ (x.setPublic true).indices ↔ i ∈ x.indices ∨ i = x.size - 1 :=
  mem_put_true

theorem mem_foldl_add {groups : List String} :
    i ∈ (groups.foldl (fun x group => x.add hash group) x).indices ↔
      i ∈ x.indices ∨ ∃ q ∈ groups, i = x.place hash q := by
  induction groups generalizing x with
  | nil => simp
  | cons group groups ih =>
    have hplace (q : String) : (x.add hash group).place hash q = x.place hash q := rfl
    simp only [List.foldl_cons, ih, hplace, mem_add, List.exists_mem_cons_iff, or_assoc]

@[simp] theorem size_foldl_add (groups : List String) :
    (groups.foldl (fun x group => x.add hash group) x).size = x.size := by
  induction groups generalizing x with
  | nil => rfl
  | cons group groups ih => exact ih

@[simp] theorem size_encode (hash : String → UInt64) (size : Nat) (owner : Option String)
    (groups : List String) (isPublic : Bool) :
    (encode hash size owner groups isPublic).size = size := by
  cases owner with
  | none => cases isPublic <;> exact size_foldl_add groups
  | some name => cases isPublic <;> exact size_foldl_add groups

theorem mem_encode_false {owner : Option String} {groups : List String} :
    i ∈ (encode hash size owner groups false).indices ↔
      (owner = none ∧ i = size - 1) ∨
        ∃ q ∈ owner.toList ++ groups, i = (hash q).toNat % (size - 1) := by
  cases owner with
  | none =>
    show i ∈ (groups.foldl (fun x group => x.add hash group)
      ((empty size).setPublic true)).indices ↔ _
    rw [mem_foldl_add, mem_setPublic_true]
    simp [empty, place, setPublic, put]
  | some name =>
    show i ∈ (groups.foldl (fun x group => x.add hash group)
      ((empty size).add hash name)).indices ↔ _
    rw [mem_foldl_add, mem_add]
    simp [empty, place, add, put]

/-- The indices for a document are those of its principals, and the last one if it is for
everyone. -/
theorem mem_encode {owner : Option String} {groups : List String} {isPublic : Bool} :
    i ∈ (encode hash size owner groups isPublic).indices ↔
      ((isPublic = true ∨ owner = none) ∧ i = size - 1) ∨
        ∃ q ∈ owner.toList ++ groups, i = (hash q).toNat % (size - 1) := by
  cases isPublic with
  | false =>
    rw [mem_encode_false]
    simp
  | true =>
    show i ∈ ((encode hash size owner groups false).setPublic true).indices ↔ _
    rw [mem_setPublic_true, size_encode, mem_encode_false]
    by_cases hi : i = size - 1
    · simp [hi]
    · simp [hi]

theorem union_comm (h : x.size = y.size) : x.union y = y.union x :=
  IndexSet.ext h (Finset.union_comm ..)

theorem union_assoc (x y z : IndexSet) : (x.union y).union z = x.union (y.union z) :=
  IndexSet.ext rfl (Finset.union_assoc ..)

theorem union_self (x : IndexSet) : x.union x = x :=
  IndexSet.ext rfl (Finset.union_self _)

theorem encode_append (size : Nat) (owner : Option String) (groups groups' : List String)
    (isPublic isPublic' : Bool) :
    (encode hash size owner groups isPublic).union (encode hash size owner groups' isPublic') =
      encode hash size owner (groups ++ groups') (isPublic || isPublic') := by
  ext i
  · simp [union]
  · simp only [union, Finset.mem_union, mem_encode, List.mem_append, Bool.or_eq_true]
    grind

theorem encode_congr {groups groups' : List String} (h : ∀ p, p ∈ groups ↔ p ∈ groups')
    (size : Nat) (owner : Option String) (isPublic : Bool) :
    encode hash size owner groups isPublic = encode hash size owner groups' isPublic := by
  ext i
  · simp
  · simp only [mem_encode, List.mem_append, h]

end IndexSet

namespace Bitstring

variable {hash : String → UInt64} {a b c : Bitstring} {x y z : IndexSet}

theorem visibleTo_iff {user : Option String} {groups : List String} :
    b.visibleTo hash user groups = true ↔
      b.isPublic = true ∨ ∃ p ∈ user.toList ++ groups, b.contains hash p = true := by
  cases user with
  | none => simp [visibleTo]
  | some name => simp [visibleTo, or_assoc]

theorem encode_of_lt {size : Nat} (h : size < minSize) (hash : String → UInt64)
    (owner : Option String) (groups : List String) (isPublic : Bool) :
    encode hash size owner groups isPublic = .error (.tooSmall size) := by
  rw [encode, new, if_pos h]
  rfl

/-- Documents with the same indices have the same bitstring. -/
theorem encode_eq_encode {size : Nat} {owner owner' : Option String}
    {groups groups' : List String} {isPublic isPublic' : Bool}
    (h : IndexSet.encode hash size owner groups isPublic =
      IndexSet.encode hash size owner' groups' isPublic') :
    encode hash size owner groups isPublic = encode hash size owner' groups' isPublic' := by
  by_cases hsize : minSize ≤ size
  · obtain ⟨a, ha⟩ := exists_encode hsize hash owner groups isPublic
    obtain ⟨b, hb⟩ := exists_encode hsize hash owner' groups' isPublic'
    have heq : a = b := (Represents.encode ha).unique (h ▸ Represents.encode hb)
    rw [ha, hb, heq]
  · have hlt := Nat.not_le.1 hsize
    rw [encode_of_lt hlt, encode_of_lt hlt]

theorem Represents.union_comm (ha : a.Represents x) (hb : b.Represents y) (h : a.union b = .ok c) :
    b.union a = .ok c := by
  have hsize := (union_eq_ok_iff.1 h).1
  obtain ⟨d, hd⟩ := exists_union hsize.symm
  have hsets : x.union y = y.union x :=
    IndexSet.union_comm (ha.size_eq.symm.trans (hsize.trans hb.size_eq))
  rw [hd, (hb.union ha hd).unique (hsets ▸ ha.union hb h)]

theorem Represents.union_self (ha : a.Represents x) : a.union a = .ok a := by
  obtain ⟨c, hc⟩ := exists_union (rfl : a.size = a.size)
  rw [hc, (ha.union ha hc).unique (x.union_self.symm ▸ ha)]

/-- Three bitstrings of one size have a union, whichever two are taken first. -/
theorem exists_union_union (ha : a.Represents x) (hb : b.Represents y) (hc : c.Represents z)
    (hab : a.size = b.size) (hbc : b.size = c.size) :
    ∃ d, (do (← a.union b).union c) = .ok d ∧ (do a.union (← b.union c)) = .ok d := by
  obtain ⟨first, hfirst⟩ := exists_union hab
  obtain ⟨last, hlast⟩ := exists_union hbc
  obtain ⟨d, hd⟩ := exists_union (b := c) ((size_of_union hfirst).trans (hab.trans hbc))
  obtain ⟨e, he⟩ := exists_union (a := a) (hab.trans (size_of_union hlast).symm)
  have heq : e = d := by
    refine (ha.union (hb.union hc hlast) he).unique ?_
    rw [← IndexSet.union_assoc]
    exact (ha.union hb hfirst).union hc hd
  exact ⟨d, Outcome.bind_eq_ok_iff.2 ⟨first, hfirst, hd⟩,
    Outcome.bind_eq_ok_iff.2 ⟨last, hlast, heq ▸ he⟩⟩

/-- The groups of two documents may be put together before or afterwards. -/
theorem encode_union_encode (size : Nat) (owner : Option String) (groups groups' : List String)
    (isPublic isPublic' : Bool) :
    (do
      let a ← encode hash size owner groups isPublic
      let b ← encode hash size owner groups' isPublic'
      a.union b) = encode hash size owner (groups ++ groups') (isPublic || isPublic') := by
  by_cases hsize : minSize ≤ size
  · obtain ⟨a, ha⟩ := exists_encode hsize hash owner groups isPublic
    obtain ⟨b, hb⟩ := exists_encode hsize hash owner groups' isPublic'
    obtain ⟨c, hc⟩ := exists_encode hsize hash owner (groups ++ groups') (isPublic || isPublic')
    have hrep := Represents.encode ha
    have hrep' := Represents.encode hb
    obtain ⟨d, hd⟩ := exists_union (a := a) (b := b) (by simp [hrep.size_eq, hrep'.size_eq])
    have hunion := hrep.union hrep' hd
    rw [IndexSet.encode_append] at hunion
    have heq : d = c := hunion.unique (.encode hc)
    rw [hc, ← heq]
    exact Outcome.bind_eq_ok_iff.2 ⟨a, ha, Outcome.bind_eq_ok_iff.2 ⟨b, hb, hd⟩⟩
  · simp only [encode_of_lt (Nat.not_le.1 hsize)]
    rfl

/-- The union is visible to whoever sees one of the two. -/
theorem Represents.visibleTo_union (ha : a.Represents x) (hb : b.Represents y)
    (h : a.union b = .ok c) (user : Option String) (groups : List String) :
    c.visibleTo hash user groups =
      (a.visibleTo hash user groups || b.visibleTo hash user groups) := by
  have hbit := bit_of_union ha.wellFormed hb.wellFormed h
  have hsize := (union_eq_ok_iff.1 h).1
  have hpublic : c.isPublic = (a.isPublic || b.isPublic) := by
    rw [isPublic, hbit, isPublic, isPublic, publicIndex, publicIndex, publicIndex,
      size_of_union h, hsize]
  have hcontains (p : String) :
      c.contains hash p = (a.contains hash p || b.contains hash p) := by
    rw [contains, hbit, contains, contains, indexOf, indexOf, indexOf, size_of_union h, hsize]
  rw [Bool.eq_iff_iff, Bool.or_eq_true, visibleTo_iff, visibleTo_iff, visibleTo_iff, hpublic,
    Bool.or_eq_true]
  simp only [hcontains, Bool.or_eq_true, and_or_left, exists_or]
  exact or_or_or_comm

/-- A document is visible to a caller when it is for everyone, has no owner, or has a principal at
the index of one of the caller's. -/
theorem visibleTo_of_encode {size : Nat} {owner : Option String} {groups : List String}
    {isPublic : Bool} (h : encode hash size owner groups isPublic = .ok b) (user : Option String)
    (callers : List String) :
    b.visibleTo hash user callers = true ↔ isPublic = true ∨ owner = none ∨
      ∃ p ∈ user.toList ++ callers, ∃ q ∈ owner.toList ++ groups,
        principalIndex hash p size = principalIndex hash q size := by
  have hb := Represents.encode h
  have hsize : b.size = size := hb.size_eq.trans (IndexSet.size_encode ..)
  have hmin : minSize ≤ size := hsize ▸ hb.wellFormed.minSize_le
  have hne (p : String) : size - 1 ≠ (hash p).toNat % (size - 1) := by
    have hle : 2 ≤ size := hmin
    exact Nat.ne_of_gt (Nat.mod_lt _ (by omega))
  have hpublic : b.isPublic = true ↔ isPublic = true ∨ owner = none := by
    rw [hb.isPublic_iff, IndexSet.size_encode, IndexSet.mem_encode]
    simp [hne]
  have hcontains (p : String) : b.contains hash p = true ↔
      ∃ q ∈ owner.toList ++ groups, principalIndex hash p size = principalIndex hash q size := by
    rw [hb.contains_iff, IndexSet.mem_encode, IndexSet.place, IndexSet.size_encode]
    simp only [(hne p).symm, and_false, false_or, principalIndex_eq_mod hash _ hmin]
  simp only [visibleTo_iff, hpublic, hcontains, or_assoc]

/-- A document is visible to a caller exactly when it is for everyone, has no owner, or has a
principal at the index of one of the caller's, so at least when the two have a principal in common.
Bitstrings of one size have a union, which is visible to whoever sees one of the two, and it does
not matter in which order unions are taken, nor whether they are repeated. Bitstrings of different
sizes have none. Only the set of the groups of a document matters, and the union of the bitstrings for
some groups and for others is the one for all of them. -/
theorem visible_exactly (hash : String → UInt64) :
    (∀ size owner groups isPublic, 2 ≤ size →
      ∃ b, encode hash size owner groups isPublic = .ok b ∧ ∀ user callers,
        (b.visibleTo hash user callers = true ↔ isPublic = true ∨ owner = none ∨
          ∃ p ∈ user.toList ++ callers, ∃ q ∈ owner.toList ++ groups,
            principalIndex hash p size = principalIndex hash q size) ∧
        ((∃ p ∈ user.toList ++ callers, p ∈ owner.toList ++ groups) →
          b.visibleTo hash user callers = true)) ∧
    (∀ a b x y, Made hash a x → Made hash b y →
      (a.size ≠ b.size → a.union b = .error (.lengthMismatch a.size b.size)) ∧
      (a.size = b.size → ∃ c, a.union b = .ok c ∧ b.union a = .ok c ∧ ∀ user callers,
        c.visibleTo hash user callers =
          (a.visibleTo hash user callers || b.visibleTo hash user callers))) ∧
    (∀ a x, Made hash a x → a.union a = .ok a) ∧
    (∀ a b c x y z, Made hash a x → Made hash b y → Made hash c z → a.size = b.size →
      b.size = c.size → ∃ d, (do (← a.union b).union c) = .ok d ∧
        (do a.union (← b.union c)) = .ok d) ∧
    (∀ size owner groups groups' isPublic, (∀ p, p ∈ groups ↔ p ∈ groups') →
      encode hash size owner groups isPublic = encode hash size owner groups' isPublic) ∧
    ∀ size owner groups groups' isPublic isPublic',
      (do
        let a ← encode hash size owner groups isPublic
        let b ← encode hash size owner groups' isPublic'
        a.union b) = encode hash size owner (groups ++ groups') (isPublic || isPublic') := by
  refine ⟨fun size owner groups isPublic hsize => ?_, fun a b x y ha hb => ⟨fun hne => if_neg hne,
    fun hsize => ?_⟩, fun a x ha => ?_, fun a b c x y z ha hb hc hab hbc => ?_,
    fun size owner groups groups' isPublic h => ?_,
    fun size owner groups groups' isPublic isPublic' => ?_⟩
  · obtain ⟨b, hb⟩ := exists_encode hsize hash owner groups isPublic
    have hvisible := visibleTo_of_encode hb
    refine ⟨b, hb, fun user callers => ⟨hvisible user callers, ?_⟩⟩
    rintro ⟨p, hp, hlisted⟩
    exact (hvisible user callers).2 (.inr (.inr ⟨p, hp, p, hlisted, rfl⟩))
  · obtain ⟨c, hc⟩ := exists_union hsize
    exact ⟨c, hc, ha.represents.union_comm hb.represents hc,
      ha.represents.visibleTo_union hb.represents hc⟩
  · exact ha.represents.union_self
  · exact exists_union_union ha.represents hb.represents hc.represents hab hbc
  · exact encode_eq_encode (IndexSet.encode_congr h size owner isPublic)
  · exact encode_union_encode size owner groups groups' isPublic isPublic'

/-- Somebody who is not listed shares an index with somebody who is. -/
theorem visible_exactly_shared_index :
    let hash : String → UInt64 := fun name => if name = "ada" then 64 else 3
    ∃ a b c, encode hash 66 (some "ada") ["bob"] false = .ok a ∧
      encode hash 66 (some "ada") ["bob", "bob"] false = .ok a ∧
      encode hash 66 none [] false = .ok b ∧ a.union b = .ok c ∧ b.union a = .ok c ∧
      a.visibleTo hash (some "eve") ["bob"] = true ∧ a.visibleTo hash (some "eve") [] = true ∧
      a.visibleTo hash none [] = false ∧ c.visibleTo hash none [] = true := by
  intro hash
  obtain ⟨hvisible, hunion, -, -, hgroups, -⟩ := visible_exactly hash
  obtain ⟨a, ha, hseen⟩ := hvisible 66 (some "ada") ["bob"] false (by decide)
  obtain ⟨b, hb, hopen⟩ := hvisible 66 none [] false (by decide)
  have hsize : a.size = b.size :=
    (Represents.encode ha).size_eq.trans (Represents.encode hb).size_eq.symm
  obtain ⟨c, hc, hc', heither⟩ := (hunion a b _ _ (.encode ha) (.encode hb)).2 hsize
  refine ⟨a, b, c, ha, ?_, hb, hc, hc', ?_, ?_, ?_, ?_⟩
  · rw [← ha]
    exact hgroups 66 (some "ada") ["bob", "bob"] ["bob"] false (by simp)
  · exact (hseen (some "eve") ["bob"]).2 ⟨"bob", by decide, by decide⟩
  · exact (hseen (some "eve") []).1.2
      (.inr (.inr ⟨"eve", by decide, "bob", by decide, by decide +kernel⟩))
  · rw [Bool.eq_false_iff, Ne, (hseen none []).1]
    simp
  · rw [heither, (hopen none []).1.2 (.inr (.inl rfl)), Bool.or_true]

end Bitstring

end Catalog
