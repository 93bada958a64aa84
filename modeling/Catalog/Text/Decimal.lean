/-!
# Decimal natural numbers

Reading natural numbers from ASCII digits. Three forms are read: any digits at all, the canonical
form (no leading zero, so that writing the number gives the text back), and the lenient form of a
setting, which may start with one plus sign. The last two hold a number below `2 ^ 64`. The
canonical decimals are exactly the written forms of these numbers.
-/

namespace Catalog.Text

/-- The number of digits is unlimited; a text without digits or with another character is none. -/
def digits? (cs : List Char) : Option Nat :=
  if cs.isEmpty || !cs.all Char.isDigit then none else some (Nat.ofDigitChars 10 cs 0)

theorem digits?_eq_some_iff {cs : List Char} {n : Nat} :
    digits? cs = some n ↔
      cs ≠ [] ∧ (∀ c ∈ cs, c.isDigit = true) ∧ Nat.ofDigitChars 10 cs 0 = n := by
  unfold digits?
  by_cases he : cs = []
  · simp [he]
  · by_cases hd : cs.all Char.isDigit
    · simp only [List.all_eq_true] at hd
      simp [he]
    · have hn : ¬ ∀ c ∈ cs, c.isDigit = true := by simpa using hd
      simp [hn]

/-- The written form of a number reads back. -/
theorem digits?_toDigits (n : Nat) : digits? (Nat.toDigits 10 n) = some n := by
  rw [digits?_eq_some_iff]
  refine ⟨Nat.toDigits_ne_nil, fun c hc => ?_, Nat.ofDigitChars_ten_toDigits⟩
  exact Nat.isDigit_of_mem_toDigits (by decide) (by decide) hc

/-- The first natural number that a machine word does not hold. -/
def wordBound : Nat := Nat.pow 2 64

/-- Keep a number that fits a machine word. -/
def word? (n : Nat) : Option Nat := if n < wordBound then some n else none

/-- A text is canonical when it is `0` or starts with no zero. -/
def isCanonical (cs : List Char) : Bool := cs == ['0'] || cs.head? != some '0'

/-- A digit is the written form of its value. -/
theorem digitChar_toNat_sub {c : Char} (h : c.isDigit = true) :
    Nat.digitChar (c.toNat - 48) = c ∧ c.toNat - 48 < 10 := by
  simp only [Char.isDigit, Bool.and_eq_true, decide_eq_true_eq, ge_iff_le,
    UInt32.le_iff_toNat_le] at h
  obtain ⟨hlow, hhigh⟩ := h
  change 48 ≤ c.toNat at hlow
  change c.toNat ≤ 57 at hhigh
  have hc : c = Char.ofNat c.toNat := by simp
  rw [hc]
  generalize c.toNat = n at *
  have hn : n = 48 ∨ n = 49 ∨ n = 50 ∨ n = 51 ∨ n = 52 ∨ n = 53 ∨ n = 54 ∨ n = 55 ∨ n = 56 ∨
      n = 57 := by omega
  rcases hn with rfl | rfl | rfl | rfl | rfl | rfl | rfl | rfl | rfl | rfl <;> decide

/-- Digits that follow a positive number are written behind it. -/
theorem toDigits_ofDigitChars {n : Nat} (hn : 0 < n) (cs : List Char)
    (hd : ∀ c ∈ cs, c.isDigit = true) :
    Nat.toDigits 10 (Nat.ofDigitChars 10 cs n) = Nat.toDigits 10 n ++ cs := by
  induction cs generalizing n with
  | nil => simp
  | cons c rest ih =>
    have hc := digitChar_toNat_sub (hd c (by simp))
    have hs := Nat.toDigits_append_toDigits (b := 10) (by decide) hn hc.2
    rw [Nat.toDigits_of_lt_base hc.2, hc.1] at hs
    rw [Nat.ofDigitChars_cons, ih (by omega) fun d h => hd d (by simp [h])]
    change Nat.toDigits 10 (10 * n + (c.toNat - 48)) ++ rest = _
    rw [← hs]
    simp

/-- A canonical text is the written form of the number it reads as. -/
theorem toDigits_of_isCanonical {cs : List Char} {n : Nat} (hc : isCanonical cs = true)
    (h : digits? cs = some n) : Nat.toDigits 10 n = cs := by
  obtain ⟨hne, hd, rfl⟩ := digits?_eq_some_iff.1 h
  cases cs with
  | nil => simp at hne
  | cons c rest =>
    have hv := digitChar_toNat_sub (hd c (by simp))
    have hr : ∀ d ∈ rest, d.isDigit = true := fun d hd' => hd d (by simp [hd'])
    rw [Nat.ofDigitChars_cons]
    change Nat.toDigits 10 (Nat.ofDigitChars 10 rest (10 * 0 + (c.toNat - 48))) = _
    rw [Nat.mul_zero, Nat.zero_add]
    by_cases hz : c.toNat - 48 = 0
    · have hc0 : c = '0' := by rw [← hv.1, hz]; rfl
      subst hc0
      have hnil : rest = [] := by simpa [isCanonical] using hc
      subst hnil
      rfl
    · rw [toDigits_ofDigitChars (by omega) _ hr, Nat.toDigits_of_lt_base hv.2, hv.1]
      rfl

theorem isCanonical_toDigits (n : Nat) : isCanonical (Nat.toDigits 10 n) = true := by
  induction n using Nat.strongRecOn with
  | _ n ih =>
  rw [Nat.toDigits_eq_if (by decide)]
  split
  · next h =>
    have hn : n = 0 ∨ n = 1 ∨ n = 2 ∨ n = 3 ∨ n = 4 ∨ n = 5 ∨ n = 6 ∨ n = 7 ∨ n = 8 ∨ n = 9 := by
      omega
    rcases hn with rfl | rfl | rfl | rfl | rfl | rfl | rfl | rfl | rfl | rfl <;> decide
  · next h =>
    have hq := ih (n / 10) (by omega)
    simp only [isCanonical, Bool.or_eq_true, beq_iff_eq, bne_iff_ne, ne_eq] at hq ⊢
    right
    rw [List.head?_append, Option.or_of_isSome (by simp)]
    rcases hq with h0 | h0
    · exfalso
      have hv : n / 10 = Nat.ofDigitChars 10 ['0'] 0 := by
        rw [← h0, Nat.ofDigitChars_ten_toDigits]
      have hz : Nat.ofDigitChars 10 ['0'] 0 = 0 := by decide
      omega
    · exact h0

/-- Read a canonical decimal below `2 ^ 64`. -/
def canonical? (cs : List Char) : Option Nat :=
  if isCanonical cs then (digits? cs).bind word? else none

/-- The canonical decimals are exactly the written forms of numbers below `2 ^ 64`. -/
theorem canonical?_eq_some_iff {cs : List Char} {n : Nat} :
    canonical? cs = some n ↔ cs = Nat.toDigits 10 n ∧ n < wordBound := by
  unfold canonical? word?
  constructor
  · intro h
    by_cases hc : isCanonical cs
    · rw [if_pos hc] at h
      obtain ⟨m, hm, hw⟩ := Option.bind_eq_some_iff.1 h
      split at hw
      · next hlt => cases hw; exact ⟨(toDigits_of_isCanonical hc hm).symm, hlt⟩
      · simp at hw
    · simp [hc] at h
  · rintro ⟨rfl, hn⟩
    simp [isCanonical_toDigits, digits?_toDigits, hn]

/-- Read a decimal below `2 ^ 64` that may start with one plus sign and with zeros. -/
def unsigned? (cs : List Char) : Option Nat :=
  match cs with
  | '+' :: rest => (digits? rest).bind word?
  | _ => (digits? cs).bind word?

end Catalog.Text
