import X64.Text.Blank
import Mathlib

/-!
# Codes of characters

Letters, digits and blanks are ranges of character codes, so they are told apart by linear
arithmetic.
-/

namespace X64.Text

theorem isLower_iff_toNat {c : Char} : c.isLower = true ↔ 97 ≤ c.toNat ∧ c.toNat ≤ 122 := by
  show (decide ('a'.val ≤ c.val) && decide (c.val ≤ 'z'.val)) = true ↔ _
  rw [Bool.and_eq_true, decide_eq_true_iff, decide_eq_true_iff, UInt32.le_iff_toNat_le,
    UInt32.le_iff_toNat_le]
  rfl

theorem isUpper_iff_toNat {c : Char} : c.isUpper = true ↔ 65 ≤ c.toNat ∧ c.toNat ≤ 90 := by
  show decide ('A'.val ≤ c.val ∧ c.val ≤ 'Z'.val) = true ↔ _
  rw [decide_eq_true_iff, UInt32.le_iff_toNat_le, UInt32.le_iff_toNat_le]
  rfl

theorem isAlpha_iff {c : Char} : c.isAlpha = true ↔ c.isUpper = true ∨ c.isLower = true :=
  Bool.or_eq_true_iff

/-- The codes of the digits, as numerals. -/
theorem toNat_of_isDigit {c : Char} (hc : c.isDigit = true) : 48 ≤ c.toNat ∧ c.toNat ≤ 57 :=
  Char.isDigit_iff_toNat.1 hc

theorem isBlank_of_isDigit {c : Char} (hc : c.isDigit = true) : isBlank c = false := by
  have hrange := toNat_of_isDigit hc
  simp only [isBlank, Bool.or_eq_false_iff, Bool.and_eq_false_iff, decide_eq_false_iff_not,
    beq_eq_false_iff_ne]
  omega

theorem toLower_of_isDigit {c : Char} (hc : c.isDigit = true) : c.toLower = c := by
  have hrange := toNat_of_isDigit hc
  apply Char.toLower_eq_of_not_isUpper
  rw [isUpper_iff_toNat]
  omega

theorem toNat_toLower (c : Char) :
    c.toLower.toNat = if 65 ≤ c.toNat ∧ c.toNat ≤ 90 then c.toNat + 32 else c.toNat := by
  by_cases hc : c.isUpper = true
  · have hrange := isUpper_iff_toNat.1 hc
    have hvalid : (c.toNat + 32).isValidChar := Or.inl (by omega)
    rw [if_pos hrange, Char.toLower_eq_of_isUpper hc, Char.toNat_ofNat, if_pos hvalid]
  · rw [if_neg (mt isUpper_iff_toNat.2 hc), Char.toLower_eq_of_not_isUpper hc]

/-- A character that is no letter is in lower case only by itself. -/
theorem toLower_eq_iff {c d : Char} (hd : d.isAlpha = false) : c.toLower = d ↔ c = d := by
  have hrange : ¬(d.isUpper = true ∨ d.isLower = true) := by
    rw [← isAlpha_iff, hd]
    decide
  rw [isUpper_iff_toNat, isLower_iff_toNat] at hrange
  rw [← Char.toNat_inj, ← Char.toNat_inj, toNat_toLower]
  split <;> omega

end X64.Text
