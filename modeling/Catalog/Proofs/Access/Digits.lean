import Catalog.Proofs.Access.Indices

/-!
# The digits of a bitstring

A bitstring is kept as a text with one digit for each bit. Every bitstring that was made by the
operations is read back from its digits just as it was, and every text that is read is written again
just as it was. A text is refused for its length first, and then for the first character that is no
digit.
-/

namespace Catalog.Bitstring

variable {hash : String → UInt64} {b c : Bitstring} {x : IndexSet} {s : String} {i : Nat}

/-- A character that stands for a bit. -/
def IsDigit (d : Char) : Prop := d = '0' ∨ d = '1'

theorem exists_readDigits_iff {digits : List Char} :
    (∃ c, b.readDigits i digits = .ok c) ↔ ∀ d ∈ digits, IsDigit d := by
  induction digits generalizing b i with
  | nil => simp [readDigits]
  | cons d digits ih =>
    rw [readDigits, List.forall_mem_cons]
    by_cases hzero : d = '0'
    · rw [if_pos hzero, ih]
      exact (and_iff_right (.inl hzero)).symm
    · rw [if_neg hzero]
      by_cases hone : d = '1'
      · rw [if_pos hone, ih]
        exact (and_iff_right (.inr hone)).symm
      · rw [if_neg hone]
        have hnot : ¬IsDigit d := by
          rintro (h | h)
          · exact hzero h
          · exact hone h
        simp [hnot]

/-- Reading stops at the first character that is no digit. -/
theorem readDigits_append_cons {before after : List Char} {d : Char}
    (hbefore : ∀ d ∈ before, IsDigit d) (hd : ¬IsDigit d) :
    b.readDigits i (before ++ d :: after) = .error (.invalidDigit (i + before.length) d) := by
  induction before generalizing b i with
  | nil =>
    have hzero : d ≠ '0' := fun h => hd (.inl h)
    have hone : d ≠ '1' := fun h => hd (.inr h)
    rw [List.nil_append, readDigits, if_neg hzero, if_neg hone]
    rfl
  | cons first before ih =>
    obtain ⟨hfirst, hbefore⟩ := List.forall_mem_cons.1 hbefore
    have hplace : i + 1 + before.length = i + (first :: before).length := by
      rw [List.length_cons]
      omega
    rw [List.cons_append, readDigits]
    split
    · rw [ih hbefore, hplace]
    · next hzero => rw [if_pos (hfirst.resolve_left hzero), ih hbefore, hplace]

theorem ofString_of_length_lt (h : s.toList.length < minSize) :
    ofString s = .error (.tooSmall s.toList.length) := by
  rw [ofString, new, if_pos h]
  rfl

theorem ofString_eq_readDigits (h : minSize ≤ s.toList.length) :
    ∃ clear, new s.toList.length = .ok clear ∧ ofString s = clear.readDigits 0 s.toList := by
  obtain ⟨clear, hnew⟩ := exists_new h
  refine ⟨clear, hnew, ?_⟩
  rw [ofString, hnew]
  rfl

theorem exists_ofString_iff :
    (∃ b, ofString s = .ok b) ↔ minSize ≤ s.toList.length ∧ ∀ d ∈ s.toList, IsDigit d := by
  by_cases hlength : minSize ≤ s.toList.length
  · obtain ⟨clear, -, hread⟩ := ofString_eq_readDigits hlength
    rw [hread, exists_readDigits_iff]
    exact (and_iff_right hlength).symm
  · rw [ofString_of_length_lt (Nat.not_le.1 hlength)]
    simp [hlength]

/-- What is read is written again as it was. -/
theorem toString_of_ofString (h : ofString s = .ok b) : b.toString = s := by
  obtain ⟨-, hsize, hbit⟩ := of_ofString h
  obtain ⟨-, hdigits⟩ := exists_ofString_iff.1 ⟨b, h⟩
  refine String.toList_inj.1 (List.ext_getElem? fun i => ?_)
  by_cases hi : i < b.size
  · have hi' : i < s.toList.length := hsize ▸ hi
    rw [getElem?_toList_toString hi, List.getElem?_eq_getElem hi']
    have hbit := hbit i
    rw [List.getElem?_eq_getElem hi', Option.some.injEq] at hbit
    rcases hdigits _ (List.getElem_mem hi') with hzero | hone
    · rw [hzero] at hbit ⊢
      simp [Bool.eq_false_iff.2 fun h => absurd (hbit.1 h) (by decide)]
    · rw [hone] at hbit ⊢
      simp [hbit.2 rfl]
  · rw [List.getElem?_eq_none (by rw [length_toList_toString]; omega),
      List.getElem?_eq_none (by omega)]

/-- What is written is read back as it was. -/
theorem WellFormed.ofString_toString (h : b.WellFormed) : ofString b.toString = .ok b := by
  have hdigits : ∀ d ∈ b.toString.toList, IsDigit d := by
    intro d hd
    rw [toList_toString] at hd
    obtain ⟨i, -, rfl⟩ := List.mem_map.1 hd
    cases b.bit i with
    | false => exact .inl rfl
    | true => exact .inr rfl
  have hlength : minSize ≤ b.toString.toList.length := by
    rw [length_toList_toString]
    exact h.minSize_le
  obtain ⟨c, hc⟩ := exists_ofString_iff.2 ⟨hlength, hdigits⟩
  have heq : c = b := ((of_ofString hc).1.toString_inj h).1 (toString_of_ofString hc)
  rw [hc, heq]

/-- A bitstring that was made by the operations has as many digits as bits, and is read back from
them. A text is read exactly when it has at least two characters and only digits, and is then
written again. Any other text is refused for being too short, or for the first character that is no
digit, at its position. Where the number of digits is known, a text with another number is refused
for that, and any other text is read as usual. -/
theorem digits_lossless (hash : String → UInt64) :
    (∀ b x, Made hash b x → b.toString.toList.length = b.size ∧
      ofString b.toString = .ok b ∧ ofStringSized b.toString b.size = .ok b ∧
      ofJson? b.toJson = some (.ok b)) ∧
    ∀ s : String,
      ((∃ b, ofString s = .ok b) ↔
        2 ≤ s.toList.length ∧ ∀ d ∈ s.toList, d = '0' ∨ d = '1') ∧
      (∀ b, ofString s = .ok b → b.toString = s) ∧
      (s.toList.length < 2 → ofString s = .error (.tooSmall s.toList.length)) ∧
      (∀ before d after, 2 ≤ s.toList.length → s.toList = before ++ d :: after →
        (∀ d ∈ before, d = '0' ∨ d = '1') → ¬(d = '0' ∨ d = '1') →
        ofString s = .error (.invalidDigit before.length d)) ∧
      ∀ size, (s.toList.length ≠ size →
          ofStringSized s size = .error (.lengthMismatch size s.toList.length)) ∧
        (s.toList.length = size → ofStringSized s size = ofString s) := by
  refine ⟨fun b x h => ?_, fun s => ⟨exists_ofString_iff, fun b h => toString_of_ofString h,
    ofString_of_length_lt, fun before d after hlength hs hbefore hd => ?_, fun size =>
      ⟨fun hne => if_neg hne, fun heq => if_pos heq⟩⟩⟩
  · have hread := h.represents.wellFormed.ofString_toString
    have hsized : ofStringSized b.toString b.size = .ok b := by
      rw [ofStringSized, if_pos (length_toList_toString b), hread]
    exact ⟨length_toList_toString b, hread, hsized, congrArg some hread⟩
  · obtain ⟨clear, -, hread⟩ := ofString_eq_readDigits hlength
    rw [hread, hs, readDigits_append_cons hbefore hd, Nat.zero_add]

theorem digits_lossless_accent :
    ofString "01é2" = .error (.invalidDigit 2 'é') ∧ ofString "é" = .error (.tooSmall 1) ∧
      ofStringSized "é" 2 = .error (.lengthMismatch 2 1) ∧
      ∃ b, ofString "011" = .ok b ∧ b.toString = "011" ∧ ofStringSized "011" b.size = .ok b := by
  let hash : String → UInt64 := fun _ => 0
  obtain ⟨hmade, hread⟩ := digits_lossless hash
  obtain ⟨hexists, hwritten, -, -, -⟩ := hread "011"
  obtain ⟨b, hb⟩ := hexists.2 ⟨by decide, by simp⟩
  refine ⟨?_, ?_, ?_, b, hb, hwritten b hb, ?_⟩
  · exact (hread "01é2").2.2.2.1 ['0', '1'] 'é' ['2'] (by decide) (by decide) (by simp)
      (by decide)
  · exact (hread "é").2.2.1 (by decide)
  · exact ((hread "é").2.2.2.2 2).1 (by decide)
  · have hread : Made hash b (.ofDigits "011".toList) := .ofString hb
    have hsized := (hmade b _ hread).2.2.1
    rwa [hwritten b hb] at hsized

end Catalog.Bitstring
