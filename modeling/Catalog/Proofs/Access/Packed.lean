import Catalog.Access.Bitstring
import Catalog.Proofs.Outcome

/-!
# Bits packed into words

A bitstring has no more words than its bits need, and the bits of the last word that are left over
stay clear. So it is known by its size and its bits. Every operation keeps it like this, and every
index that an operation comes to has its word.
-/

namespace Catalog

theorem principalIndex_eq_mod (hash : String → UInt64) (principal : String) {size : Nat}
    (h : Bitstring.minSize ≤ size) :
    principalIndex hash principal size = (hash principal).toNat % (size - 1) := by
  have hle : 2 ≤ size := h
  rw [principalIndex, Nat.max_eq_left (by omega)]

namespace Bitstring

variable {a b c : Bitstring} {i j : Nat}

/-- The words are as many as the bits need, and nothing stands behind the last bit. -/
structure WellFormed (b : Bitstring) : Prop where
  minSize_le : minSize ≤ b.size
  length_words : b.words.length = (b.size + 63) / 64
  padding : ∀ i, b.size ≤ i → b.bit i = false

theorem bit_eq_getLsbD {w k : Nat} (hw : w < b.words.length) (hk : k < 64) :
    b.bit (64 * w + k) = b.words[w].getLsbD k := by
  have hdiv : (64 * w + k) / 64 = w := by omega
  have hmod : (64 * w + k) % 64 = k := by omega
  simp only [bit, hdiv, hmod, List.getElem?_eq_getElem hw]

/-- Bitstrings with the same bits in as many words are the same. -/
theorem ext_bit (hsize : a.size = b.size) (hlength : a.words.length = b.words.length)
    (hbit : ∀ i, a.bit i = b.bit i) : a = b := by
  have hwords : a.words = b.words := by
    refine List.ext_getElem hlength fun w ha hb => ?_
    refine BitVec.eq_of_getLsbD_eq fun k hk => ?_
    rw [← bit_eq_getLsbD ha hk, ← bit_eq_getLsbD hb hk, hbit]
  obtain ⟨size, words⟩ := a
  obtain ⟨size', words'⟩ := b
  cases hsize
  cases hwords
  rfl

theorem WellFormed.ext (ha : a.WellFormed) (hb : b.WellFormed) (hsize : a.size = b.size)
    (hbit : ∀ i, a.bit i = b.bit i) : a = b :=
  ext_bit hsize (by rw [ha.length_words, hb.length_words, hsize]) hbit

/-- Every index below the size has its word. -/
theorem WellFormed.div_lt (h : b.WellFormed) (hi : i < b.size) : i / 64 < b.words.length := by
  rw [h.length_words]
  omega

/-! ## Making one -/

theorem new_eq_ok_iff {size : Nat} : new size = .ok b ↔
    minSize ≤ size ∧ b = ⟨size, List.replicate ((size + 63) / 64) 0⟩ := by
  unfold new
  split
  · next hlt => simp [Nat.not_le.2 hlt]
  · next hle => simp [Nat.not_lt.1 hle, eq_comm]

theorem exists_new {size : Nat} (h : minSize ≤ size) : ∃ b, new size = .ok b :=
  ⟨_, new_eq_ok_iff.2 ⟨h, rfl⟩⟩

theorem size_of_new {size : Nat} (h : new size = .ok b) : b.size = size := by
  obtain ⟨-, rfl⟩ := new_eq_ok_iff.1 h
  rfl

theorem bit_of_new {size : Nat} (h : new size = .ok b) (i : Nat) : b.bit i = false := by
  obtain ⟨-, rfl⟩ := new_eq_ok_iff.1 h
  unfold bit
  cases hword : (List.replicate ((size + 63) / 64) (0 : BitVec 64))[i / 64]? with
  | none => rfl
  | some w =>
    obtain rfl := List.eq_of_mem_replicate (List.mem_of_getElem? hword)
    simp

theorem wellFormed_of_new {size : Nat} (h : new size = .ok b) : b.WellFormed where
  minSize_le := by
    rw [size_of_new h]
    exact (new_eq_ok_iff.1 h).1
  length_words := by
    obtain ⟨-, rfl⟩ := new_eq_ok_iff.1 h
    simp
  padding i _ := bit_of_new h i

/-! ## One bit -/

theorem WellFormed.bit_setBit (h : b.WellFormed) (hi : i < b.size) (j : Nat) (value : Bool) :
    (b.setBit i value).bit j = if j = i then value else b.bit j :=
  Bitstring.bit_setBit b i j value (h.div_lt hi)

theorem WellFormed.setBit (h : b.WellFormed) (hi : i < b.size) (value : Bool) :
    (b.setBit i value).WellFormed where
  minSize_le := h.minSize_le
  length_words := by rw [length_words_setBit, h.length_words, size_setBit]
  padding j hj := by
    have hne : j ≠ i := by
      rintro rfl
      exact Nat.not_lt.2 hj hi
    rw [h.bit_setBit hi, if_neg hne, h.padding j hj]

/-- Setting a bit and clearing it again changes nothing exactly when it was clear. -/
theorem WellFormed.setBit_setBit_eq_iff (h : b.WellFormed) (hi : i < b.size) :
    (b.setBit i true).setBit i false = b ↔ b.bit i = false := by
  have hset := h.setBit hi true
  have hclear (j : Nat) : ((b.setBit i true).setBit i false).bit j =
      if j = i then false else b.bit j := by
    rw [hset.bit_setBit hi, h.bit_setBit hi]
    split
    · rfl
    · rfl
  constructor
  · intro heq
    rw [← heq, hclear, if_pos rfl]
  · intro hbit
    refine (hset.setBit hi false).ext h rfl fun j => ?_
    rw [hclear]
    split
    · next hj => rw [hj, hbit]
    · rfl

theorem WellFormed.publicIndex_lt (h : b.WellFormed) : b.publicIndex < b.size := by
  have hle : 2 ≤ b.size := h.minSize_le
  rw [publicIndex]
  omega

section Principals

variable (hash : String → UInt64)

/-- A principal never stands at the index for everyone. -/
theorem WellFormed.indexOf_lt_publicIndex (h : b.WellFormed) (principal : String) :
    b.indexOf hash principal < b.publicIndex := by
  have hle : 2 ≤ b.size := h.minSize_le
  rw [indexOf, principalIndex_eq_mod hash principal h.minSize_le, publicIndex]
  exact Nat.mod_lt _ (by omega)

theorem WellFormed.indexOf_lt (h : b.WellFormed) (principal : String) :
    b.indexOf hash principal < b.size :=
  Nat.lt_trans (h.indexOf_lt_publicIndex hash principal) h.publicIndex_lt

theorem WellFormed.isPublic_setBit_indexOf (h : b.WellFormed) (principal : String)
    (value : Bool) : (b.setBit (b.indexOf hash principal) value).isPublic = b.isPublic := by
  have hlt := h.indexOf_lt_publicIndex hash principal
  rw [isPublic, h.bit_setBit (h.indexOf_lt hash principal)]
  exact if_neg (Nat.ne_of_gt hlt)

theorem WellFormed.contains_setPublic (h : b.WellFormed) (principal : String) (value : Bool) :
    (b.setPublic value).contains hash principal = b.contains hash principal := by
  have hlt := h.indexOf_lt_publicIndex hash principal
  rw [contains, setPublic, h.bit_setBit h.publicIndex_lt]
  exact if_neg (Nat.ne_of_lt hlt)

/-- Listing a principal and striking it off changes nothing exactly when it was not listed. -/
theorem WellFormed.remove_add_eq_iff (h : b.WellFormed) (principal : String) :
    ((b.add hash principal).1.remove hash principal).1 = b ↔
      b.contains hash principal = false :=
  h.setBit_setBit_eq_iff (h.indexOf_lt hash principal)

end Principals

/-! ## Both -/

theorem union_eq_ok_iff : a.union b = .ok c ↔
    a.size = b.size ∧ c = ⟨a.size, List.zipWith (· ||| ·) a.words b.words⟩ := by
  unfold union
  split
  · next hsize => simp [hsize, eq_comm]
  · next hsize => simp [hsize]

theorem exists_union (h : a.size = b.size) : ∃ c, a.union b = .ok c :=
  ⟨_, union_eq_ok_iff.2 ⟨h, rfl⟩⟩

theorem size_of_union (h : a.union b = .ok c) : c.size = a.size := by
  obtain ⟨-, rfl⟩ := union_eq_ok_iff.1 h
  rfl

theorem bit_of_union (ha : a.WellFormed) (hb : b.WellFormed) (h : a.union b = .ok c) (i : Nat) :
    c.bit i = (a.bit i || b.bit i) := by
  obtain ⟨hsize, rfl⟩ := union_eq_ok_iff.1 h
  have hlength : a.words.length = b.words.length := by
    rw [ha.length_words, hb.length_words, hsize]
  simp only [bit, List.getElem?_zipWith]
  by_cases hi : i / 64 < a.words.length
  · have hi' : i / 64 < b.words.length := hlength ▸ hi
    simp [List.getElem?_eq_getElem hi, List.getElem?_eq_getElem hi']
  · have hi' : ¬ i / 64 < b.words.length := hlength ▸ hi
    simp [List.getElem?_eq_none (Nat.not_lt.1 hi), List.getElem?_eq_none (Nat.not_lt.1 hi')]

theorem WellFormed.union (ha : a.WellFormed) (hb : b.WellFormed) (h : a.union b = .ok c) :
    c.WellFormed := by
  have hbit := bit_of_union ha hb h
  obtain ⟨hsize, rfl⟩ := union_eq_ok_iff.1 h
  refine ⟨ha.minSize_le, ?_, fun i hi => ?_⟩
  · simp [ha.length_words, hb.length_words, hsize]
  · rw [hbit, ha.padding i hi, hb.padding i (hsize ▸ hi)]
    rfl

/-! ## Counting -/

theorem storedBits_eq_map (b : Bitstring) :
    b.storedBits = (List.range (64 * b.words.length)).map b.bit := by
  obtain ⟨size, words⟩ := b
  unfold storedBits bit
  dsimp only
  -- The first word has the first sixty-four indices, and all others move on by as many.
  induction words with
  | nil => rfl
  | cons w words ih =>
    have hrange : 64 * (w :: words).length = 64 + 64 * words.length := by
      rw [List.length_cons]
      omega
    rw [List.flatMap_cons, ih, hrange, List.range_add, List.map_append, List.map_map]
    refine congrArg₂ (· ++ ·) (List.map_congr_left fun i hi => ?_)
      (List.map_congr_left fun i _ => ?_)
    · have hlt : i < 64 := List.mem_range.1 hi
      simp [Nat.div_eq_of_lt hlt, Nat.mod_eq_of_lt hlt]
    · have hdiv : (64 + i) / 64 = i / 64 + 1 := by omega
      have hmod : (64 + i) % 64 = i % 64 := by omega
      simp [hdiv, hmod]

/-- The bits that stand behind the last one count for nothing. -/
theorem WellFormed.countOnes_eq (h : b.WellFormed) :
    b.countOnes = (List.range b.size).countP b.bit := by
  obtain ⟨rest, hrest⟩ : ∃ rest, 64 * b.words.length = b.size + rest :=
    ⟨64 * b.words.length - b.size, by rw [h.length_words]; omega⟩
  have hpadding : ((List.range rest).map (b.size + ·)).countP b.bit = 0 := by
    refine List.countP_eq_zero.2 fun i hi => ?_
    obtain ⟨k, -, rfl⟩ := List.mem_map.1 hi
    simp [h.padding _ (Nat.le_add_right b.size k)]
  calc
    b.countOnes = (List.range (b.size + rest)).countP b.bit := by
      rw [countOnes, storedBits_eq_map, hrest, List.count_eq_countP, List.countP_map]
      exact List.countP_congr fun i _ => by simp
    _ = (List.range b.size).countP b.bit := by
      rw [List.range_add, List.countP_append, hpadding, Nat.add_zero]

/-! ## Digits -/

theorem toList_toString (b : Bitstring) :
    b.toString.toList = (List.range b.size).map fun i => if b.bit i then '1' else '0' :=
  String.toList_ofList

@[simp] theorem length_toList_toString (b : Bitstring) : b.toString.toList.length = b.size := by
  simp [toList_toString]

theorem getElem?_toList_toString (hi : i < b.size) :
    b.toString.toList[i]? = some (if b.bit i then '1' else '0') := by
  simp [toList_toString, hi]

/-- The digits tell the size and all bits. -/
theorem WellFormed.toString_inj (ha : a.WellFormed) (hb : b.WellFormed) :
    a.toString = b.toString ↔ a = b := by
  refine ⟨fun h => ?_, congrArg toString⟩
  have hsize : a.size = b.size := by
    rw [← length_toList_toString a, h, length_toList_toString]
  refine ha.ext hb hsize fun i => ?_
  by_cases hi : i < a.size
  · have hdigit : some (if a.bit i then '1' else '0') = some (if b.bit i then '1' else '0') := by
      rw [← getElem?_toList_toString hi, h, getElem?_toList_toString (hsize ▸ hi)]
    cases ha : a.bit i <;> cases hb : b.bit i <;> simp [ha, hb] at hdigit ⊢
  · have hle : a.size ≤ i := Nat.not_lt.1 hi
    rw [ha.padding i hle, hb.padding i (hsize ▸ hle)]

theorem WellFormed.count_toString (h : b.WellFormed) :
    b.toString.toList.count '1' = b.countOnes := by
  rw [h.countOnes_eq, toList_toString, List.count_eq_countP, List.countP_map]
  refine List.countP_congr fun i _ => ?_
  cases hbit : b.bit i <;> simp [hbit]

/-- A digit of a list is the first one or one of the others, a place further on. -/
theorem exists_getElem?_cons {d x : Char} {digits : List Char} {i j : Nat} :
    (∃ k, (d :: digits)[k]? = some x ∧ j = i + k) ↔
      (d = x ∧ j = i) ∨ ∃ k, digits[k]? = some x ∧ j = i + 1 + k := by
  constructor
  · rintro ⟨k, hk, rfl⟩
    cases k with
    | zero => exact .inl ⟨Option.some.inj hk, rfl⟩
    | succ k => exact .inr ⟨k, hk, by omega⟩
  · rintro (⟨rfl, rfl⟩ | ⟨k, hk, rfl⟩)
    · exact ⟨0, rfl, rfl⟩
    · exact ⟨k + 1, hk, by omega⟩

/-- Reading digits sets the bits of the ones among them, and keeps those that were set before. -/
theorem WellFormed.readDigits {digits : List Char} (h : b.WellFormed)
    (hfit : i + digits.length ≤ b.size) (hread : b.readDigits i digits = .ok c) :
    c.WellFormed ∧ c.size = b.size ∧
      ∀ j, c.bit j = true ↔ b.bit j = true ∨ ∃ k, digits[k]? = some '1' ∧ j = i + k := by
  induction digits generalizing b i with
  | nil =>
    cases hread
    exact ⟨h, rfl, fun j => by simp⟩
  | cons d digits ih =>
    rw [List.length_cons] at hfit
    simp only [exists_getElem?_cons]
    rw [Bitstring.readDigits] at hread
    split at hread
    · next hzero =>
      obtain ⟨hc, hsize, hbit⟩ := ih h (by omega) hread
      exact ⟨hc, hsize, fun j => by simp [hbit, hzero]⟩
    · split at hread
      · next hone =>
        have hi : i < b.size := by omega
        obtain ⟨hc, hsize, hbit⟩ := ih (h.setBit hi true) (by rw [size_setBit]; omega) hread
        refine ⟨hc, hsize, fun j => ?_⟩
        rw [hbit, h.bit_setBit hi]
        by_cases hj : j = i
        · simp [hj, hone]
        · simp [hj]
      · cases hread

/-- A text that is read has as many bits as digits, and a bit is set where a one stands. -/
theorem of_ofString {s : String} (h : ofString s = .ok b) :
    b.WellFormed ∧ b.size = s.toList.length ∧ ∀ i, b.bit i = true ↔ s.toList[i]? = some '1' := by
  obtain ⟨clear, hnew, hread⟩ := Outcome.bind_eq_ok_iff.1 h
  have hsize := size_of_new hnew
  obtain ⟨hb, hbsize, hbit⟩ := (wellFormed_of_new hnew).readDigits (by omega) hread
  refine ⟨hb, hbsize.trans hsize, fun i => ?_⟩
  simp [hbit, bit_of_new hnew]

end Bitstring

end Catalog
