import Catalog.Proofs.Access.Packed
import Mathlib.Data.Finset.Range
import Mathlib.Data.Finset.Union

/-!
# Bitstrings as sets of indices

A bitstring stands for the set of the indices at which its bits are set. Whatever operations have
made it, the same operations on sets make this set. So what a bitstring answers can be read off the
set, and two bitstrings that stand for the same set are the same.
-/

namespace Catalog

/-- A set of indices below a size. -/
@[ext] structure IndexSet where
  size : Nat
  indices : Finset Nat
  deriving DecidableEq

namespace IndexSet

variable (hash : String → UInt64)

/-- No index. -/
def empty (size : Nat) : IndexSet := ⟨size, ∅⟩

/-- Put an index in or take it out. -/
def put (x : IndexSet) (i : Nat) (value : Bool) : IndexSet :=
  { x with indices := if value then insert i x.indices else x.indices.erase i }

/-- Where a principal stands. -/
def place (x : IndexSet) (principal : String) : Nat := (hash principal).toNat % (x.size - 1)

/-- Put a principal in. -/
def add (x : IndexSet) (principal : String) : IndexSet := x.put (x.place hash principal) true

/-- Take a principal out. -/
def remove (x : IndexSet) (principal : String) : IndexSet := x.put (x.place hash principal) false

/-- Put everyone in or take everyone out. -/
def setPublic (x : IndexSet) (value : Bool) : IndexSet := x.put (x.size - 1) value

/-- The indices of both. -/
def union (x y : IndexSet) : IndexSet := { x with indices := x.indices ∪ y.indices }

/-- The indices for a document. -/
def encode (size : Nat) (owner : Option String) (groups : List String) (isPublic : Bool) :
    IndexSet :=
  let owned := match owner with
    | some name => (empty size).add hash name
    | none => (empty size).setPublic true
  let listed := groups.foldl (fun x group => x.add hash group) owned
  if isPublic then listed.setPublic true else listed

/-- The positions of the ones among some digits. -/
def ofDigits (digits : List Char) : IndexSet :=
  ⟨digits.length, (Finset.range digits.length).filter fun i => digits[i]? = some '1'⟩

@[simp] theorem mem_put {x : IndexSet} {i j : Nat} {value : Bool} :
    j ∈ (x.put i value).indices ↔ if j = i then value = true else j ∈ x.indices := by
  unfold put
  by_cases hj : j = i
  · cases value <;> simp [hj]
  · cases value <;> simp [hj]

@[simp] theorem mem_ofDigits {digits : List Char} {i : Nat} :
    i ∈ (ofDigits digits).indices ↔ digits[i]? = some '1' := by
  rw [ofDigits, Finset.mem_filter, Finset.mem_range, and_iff_right_iff_imp]
  intro h
  exact (List.getElem?_eq_some_iff.1 h).1

end IndexSet

namespace Bitstring

variable {hash : String → UInt64} {a b c : Bitstring} {x y : IndexSet}

/-- A bitstring stands for a set of indices. -/
structure Represents (b : Bitstring) (x : IndexSet) : Prop where
  wellFormed : b.WellFormed
  size_eq : b.size = x.size
  bit_iff : ∀ i, b.bit i = true ↔ i ∈ x.indices

namespace Represents

theorem publicIndex_eq (h : b.Represents x) : b.publicIndex = x.size - 1 := by
  rw [publicIndex, h.size_eq]

theorem indexOf_eq (h : b.Represents x) (principal : String) :
    b.indexOf hash principal = x.place hash principal := by
  rw [indexOf, principalIndex_eq_mod hash principal h.wellFormed.minSize_le, IndexSet.place,
    h.size_eq]

theorem contains_iff (h : b.Represents x) (principal : String) :
    b.contains hash principal = true ↔ x.place hash principal ∈ x.indices := by
  rw [contains, h.bit_iff, h.indexOf_eq]

theorem isPublic_iff (h : b.Represents x) : b.isPublic = true ↔ x.size - 1 ∈ x.indices := by
  rw [isPublic, h.bit_iff, h.publicIndex_eq]

/-- A set is stood for by one bitstring only. -/
theorem unique (ha : a.Represents x) (hb : b.Represents x) : a = b := by
  refine ha.wellFormed.ext hb.wellFormed (ha.size_eq.trans hb.size_eq.symm) fun i => ?_
  rw [Bool.eq_iff_iff, ha.bit_iff, hb.bit_iff]

theorem new {size : Nat} (h : Bitstring.new size = .ok b) : b.Represents (.empty size) where
  wellFormed := wellFormed_of_new h
  size_eq := size_of_new h
  bit_iff i := by simp [bit_of_new h, IndexSet.empty]

theorem setBit (h : b.Represents x) {i : Nat} (hi : i < b.size) (value : Bool) :
    (b.setBit i value).Represents (x.put i value) where
  wellFormed := h.wellFormed.setBit hi value
  size_eq := h.size_eq
  bit_iff j := by
    rw [h.wellFormed.bit_setBit hi, IndexSet.mem_put]
    split
    · rfl
    · exact h.bit_iff j

theorem add (h : b.Represents x) (principal : String) :
    (b.add hash principal).1.Represents (x.add hash principal) := by
  rw [IndexSet.add, ← h.indexOf_eq]
  exact h.setBit (h.wellFormed.indexOf_lt hash principal) true

theorem remove (h : b.Represents x) (principal : String) :
    (b.remove hash principal).1.Represents (x.remove hash principal) := by
  rw [IndexSet.remove, ← h.indexOf_eq]
  exact h.setBit (h.wellFormed.indexOf_lt hash principal) false

theorem setPublic (h : b.Represents x) (value : Bool) :
    (b.setPublic value).Represents (x.setPublic value) := by
  rw [IndexSet.setPublic, ← h.publicIndex_eq]
  exact h.setBit h.wellFormed.publicIndex_lt value

theorem union (ha : a.Represents x) (hb : b.Represents y) (h : a.union b = .ok c) :
    c.Represents (x.union y) where
  wellFormed := ha.wellFormed.union hb.wellFormed h
  size_eq := (size_of_union h).trans ha.size_eq
  bit_iff i := by
    rw [bit_of_union ha.wellFormed hb.wellFormed h, Bool.or_eq_true, ha.bit_iff, hb.bit_iff,
      IndexSet.union, Finset.mem_union]

theorem foldl_add (h : b.Represents x) (groups : List String) :
    (groups.foldl (fun b group => (b.add hash group).1) b).Represents
      (groups.foldl (fun x group => x.add hash group) x) := by
  induction groups generalizing b x with
  | nil => exact h
  | cons group groups ih => exact ih (h.add group)

theorem publish (h : b.Represents x) (isPublic : Bool) :
    (if isPublic then b.setPublic true else b).Represents
      (if isPublic then x.setPublic true else x) := by
  cases isPublic with
  | false => exact h
  | true => exact h.setPublic true

theorem encode {size : Nat} {owner : Option String} {groups : List String} {isPublic : Bool}
    (h : Bitstring.encode hash size owner groups isPublic = .ok b) :
    b.Represents (.encode hash size owner groups isPublic) := by
  obtain ⟨clear, hnew, h⟩ := Outcome.bind_eq_ok_iff.1 h
  have hclear := Represents.new hnew
  cases h
  cases owner with
  | some name => exact ((hclear.add name).foldl_add groups).publish isPublic
  | none => exact ((hclear.setPublic true).foldl_add groups).publish isPublic

theorem ofString {s : String} (h : Bitstring.ofString s = .ok b) :
    b.Represents (.ofDigits s.toList) where
  wellFormed := (of_ofString h).1
  size_eq := (of_ofString h).2.1
  bit_iff i := by rw [(of_ofString h).2.2, IndexSet.mem_ofDigits]

end Represents

theorem exists_encode {size : Nat} (h : minSize ≤ size) (hash : String → UInt64)
    (owner : Option String) (groups : List String) (isPublic : Bool) :
    ∃ b, Bitstring.encode hash size owner groups isPublic = .ok b := by
  obtain ⟨clear, hnew⟩ := exists_new h
  exact ⟨_, Outcome.bind_eq_ok_iff.2 ⟨clear, hnew, rfl⟩⟩

/-- The operations have made a bitstring, and on sets of indices they have made a set. -/
inductive Made (hash : String → UInt64) : Bitstring → IndexSet → Prop where
  | new {size : Nat} {b : Bitstring} (h : Bitstring.new size = .ok b) :
    Made hash b (.empty size)
  | encode {size : Nat} {owner : Option String} {groups : List String} {isPublic : Bool}
    {b : Bitstring} (h : Bitstring.encode hash size owner groups isPublic = .ok b) :
    Made hash b (.encode hash size owner groups isPublic)
  | ofString {s : String} {b : Bitstring} (h : Bitstring.ofString s = .ok b) :
    Made hash b (.ofDigits s.toList)
  | ofStringSized {s : String} {size : Nat} {b : Bitstring}
    (h : Bitstring.ofStringSized s size = .ok b) : Made hash b (.ofDigits s.toList)
  | ofJson {s : String} {b : Bitstring} (h : ofJson? (.text s) = some (.ok b)) :
    Made hash b (.ofDigits s.toList)
  | add {b : Bitstring} {x : IndexSet} (h : Made hash b x) (principal : String) :
    Made hash (b.add hash principal).1 (x.add hash principal)
  | remove {b : Bitstring} {x : IndexSet} (h : Made hash b x) (principal : String) :
    Made hash (b.remove hash principal).1 (x.remove hash principal)
  | setPublic {b : Bitstring} {x : IndexSet} (h : Made hash b x) (value : Bool) :
    Made hash (b.setPublic value) (x.setPublic value)
  | union {a b c : Bitstring} {x y : IndexSet} (ha : Made hash a x) (hb : Made hash b y)
    (h : a.union b = .ok c) : Made hash c (x.union y)

theorem ofString_of_ofStringSized {s : String} {size : Nat} (h : ofStringSized s size = .ok b) :
    ofString s = .ok b := by
  unfold ofStringSized at h
  split at h
  · exact h
  · cases h

theorem Made.represents (h : Made hash b x) : b.Represents x := by
  induction h with
  | new h => exact .new h
  | encode h => exact .encode h
  | ofString h => exact .ofString h
  | ofStringSized h => exact .ofString (ofString_of_ofStringSized h)
  | ofJson h => exact .ofString (Option.some.inj h)
  | add _ principal ih => exact ih.add principal
  | remove _ principal ih => exact ih.remove principal
  | setPublic _ value ih => exact ih.setPublic value
  | union _ _ h iha ihb => exact iha.union ihb h

/-- Whatever operations have made a bitstring: it has as many words as it needs, nothing stands
behind its last bit, and its bits are set exactly at the indices of the set that the same operations
make. Every index that an operation comes to has its word. The digits tell how many bits are set,
and they tell bitstrings apart. Listing a principal and striking it off say whether its bit was
clear, and undo each other exactly when it was. Neither touches the bit for everyone, nor does that
bit touch a principal. -/
theorem refines_of_made (h : Made hash b x) :
    (minSize ≤ b.size ∧ b.words.length = (b.size + 63) / 64 ∧ ∀ i, b.size ≤ i → b.bit i = false) ∧
    (b.size = x.size ∧ (∀ i, b.bit i = true ↔ i ∈ x.indices) ∧ ∀ i ∈ x.indices, i < x.size) ∧
    ((∀ i < b.size, i / 64 < b.words.length) ∧ b.publicIndex < b.size ∧
      ∀ principal, b.indexOf hash principal < b.publicIndex) ∧
    b.countOnes = b.toString.toList.count '1' ∧
    (∀ c y, Made hash c y → (b = c ↔ b.size = c.size ∧ b.toString = c.toString)) ∧
    ∀ principal,
      ((b.add hash principal).2 = true ↔ b.bit (b.indexOf hash principal) = false) ∧
      ((b.remove hash principal).2 = false ↔ b.bit (b.indexOf hash principal) = false) ∧
      (((b.add hash principal).1.remove hash principal).1 = b ↔
        b.contains hash principal = false) ∧
      (b.add hash principal).1.isPublic = b.isPublic ∧
      (b.remove hash principal).1.isPublic = b.isPublic ∧
      ∀ value, (b.setPublic value).contains hash principal = b.contains hash principal := by
  have hb := h.represents.wellFormed
  refine ⟨⟨hb.minSize_le, hb.length_words, hb.padding⟩, ⟨h.represents.size_eq,
    h.represents.bit_iff, fun i hi => ?_⟩, ⟨fun i hi => hb.div_lt hi, hb.publicIndex_lt,
    hb.indexOf_lt_publicIndex hash⟩, hb.count_toString.symm, fun c y hc => ?_,
    fun principal => ⟨?_, ?_, hb.remove_add_eq_iff hash principal,
      hb.isPublic_setBit_indexOf hash principal true,
      hb.isPublic_setBit_indexOf hash principal false, hb.contains_setPublic hash principal⟩⟩
  · have hbit := (h.represents.bit_iff i).2 hi
    rw [← h.represents.size_eq]
    refine Nat.lt_of_not_le fun hle => ?_
    rw [hb.padding i hle] at hbit
    cases hbit
  · rw [hb.toString_inj hc.represents.wellFormed]
    constructor
    · intro heq
      exact ⟨congrArg size heq, heq⟩
    · exact fun heq => heq.2
  · rw [add, contains, Bool.not_eq_true']
  · rw [remove, contains]

/-- Sixty-six bits need two words. Two of the principals share an index, so the second one cannot be
told from the first. -/
theorem refines_of_made_two_words :
    let hash : String → UInt64 := fun name => if name = "ada" then 64 else 3
    ∃ b, Bitstring.encode hash 66 (some "ada") ["bob"] true = .ok b ∧ b.words.length = 2 ∧
      (∀ i, b.bit i = true ↔ i = 3 ∨ i = 64 ∨ i = 65) ∧
      ((b.add hash "eve").1.remove hash "eve").1 ≠ b := by
  intro hash
  have hsize : minSize ≤ 66 := by decide
  obtain ⟨b, hb⟩ := exists_encode hsize hash (some "ada") ["bob"] true
  obtain ⟨⟨-, hlength, -⟩, ⟨hsize, hbit, -⟩, -, -, -, hprincipal⟩ := refines_of_made (.encode hb)
  have hsize : b.size = 66 := hsize
  have hindices : (IndexSet.encode hash 66 (some "ada") ["bob"] true).indices = {3, 64, 65} := by
    decide +kernel
  rw [hindices] at hbit
  refine ⟨b, hb, by rw [hlength, hsize], fun i => by simp [hbit], fun heq => ?_⟩
  have hclear := (hprincipal "eve").2.2.1.1 heq
  have hset : b.bit 3 = true := (hbit 3).2 (by decide)
  have hindex : b.indexOf hash "eve" = 3 := by
    rw [indexOf, hsize]
    decide +kernel
  rw [contains, hindex, hset] at hclear
  cases hclear

end Bitstring

end Catalog
