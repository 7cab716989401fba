import X64.Alu
import Mathlib.Data.Nat.Bitwise

/-!
# Signed comparison

The sign flag and the overflow flag of a difference agree exactly when the first operand is not less
than the second in the signed reading of their width (`holds_greaterOrEqual_sub`). All three sign
bits that the flags are made of are comparisons of the low bits with half the modulus
(`Width.isNegative_eq`), so what is left is linear arithmetic at each width. The zero flag says that
the operands agree at the width (`zero_sub`), and the other conditions are made of these two
(`holds_sub`).
-/

namespace X64

namespace Width

theorem toNat_truncate_lt (w : Width) (v : UInt64) : (w.truncate v).toNat < w.modulus := by
  rw [toNat_truncate]
  cases w <;> exact Nat.mod_lt _ (by decide)

/-- The top bit of a width is set in the upper half of its words. -/
theorem isNegative_eq (w : Width) (v : UInt64) :
    w.isNegative v = decide (w.modulus ≤ 2 * (v.toNat % w.modulus)) := by
  have hbit : ∀ k, (v.toNat &&& 2 ^ k = 0) ↔ v.toNat / 2 ^ k % 2 = 0 := by
    intro k
    rw [Nat.and_two_pow, Nat.testBit_eq_decide_div_mod_eq]
    by_cases h : v.toNat / 2 ^ k % 2 = 1
    · simp [h]
    · simp [h]
      omega
  have hzero : w.isNegative v = decide (¬v.toNat &&& w.signBit.toNat = 0) := by
    rw [Bool.eq_iff_iff, decide_eq_true_iff, isNegative, bne_iff_ne, ne_eq, ← UInt64.toNat_inj,
      UInt64.toNat_and]
    rfl
  rw [hzero, decide_eq_decide]
  cases w with
  | byte =>
    rw [show byte.signBit.toNat = 2 ^ 7 from rfl, hbit, modulus]
    omega
  | word =>
    rw [show word.signBit.toNat = 2 ^ 15 from rfl, hbit, modulus]
    omega
  | dword =>
    rw [show dword.signBit.toNat = 2 ^ 31 from rfl, hbit, modulus]
    omega
  | qword =>
    have hlt := v.toNat_lt
    rw [show qword.signBit.toNat = 2 ^ 63 from rfl, hbit, modulus]
    omega

/-- The signed reading of a word is its unsigned one, or that less the modulus. -/
theorem signed_eq (w : Width) (v : UInt64) :
    w.signed v =
      if w.modulus ≤ 2 * (v.toNat % w.modulus) then (v.toNat % w.modulus : Nat) - (w.modulus : Int)
      else (v.toNat % w.modulus : Nat) := by
  rw [signed, Int.bmod_def]
  by_cases h : w.modulus ≤ 2 * (v.toNat % w.modulus)
  · rw [if_pos h, if_neg (by cases w <;> simp only [modulus] at h ⊢ <;> omega), Int.natCast_mod]
  · rw [if_neg h, if_pos (by cases w <;> simp only [modulus] at h ⊢ <;> omega), Int.natCast_mod]

end Width

/-! ## Conditions -/

/-- What a condition says about two numbers that were compared. -/
def Condition.Orders : Condition → Int → Int → Prop
  | .equal, x, y => x = y
  | .notEqual, x, y => x ≠ y
  | .greaterOrEqual, x, y => y ≤ x
  | .less, x, y => x < y
  | .greater, x, y => y < x
  | .lessOrEqual, x, y => x ≤ y

instance (c : Condition) (x y : Int) : Decidable (c.Orders x y) :=
  match c with
  | .equal => inferInstanceAs (Decidable (x = y))
  | .notEqual => inferInstanceAs (Decidable (x ≠ y))
  | .greaterOrEqual => inferInstanceAs (Decidable (y ≤ x))
  | .less => inferInstanceAs (Decidable (x < y))
  | .greater => inferInstanceAs (Decidable (y < x))
  | .lessOrEqual => inferInstanceAs (Decidable (x ≤ y))

namespace Alu

/-- A difference wraps around at most once. -/
theorem toNat_difference (w : Width) (a b : UInt64) :
    (w.truncate (w.truncate a - w.truncate b)).toNat + (w.truncate b).toNat =
        (w.truncate a).toNat ∨
      (w.truncate (w.truncate a - w.truncate b)).toNat + (w.truncate b).toNat =
        (w.truncate a).toNat + w.modulus := by
  have ha := w.toNat_truncate_lt a
  have hb := w.toNat_truncate_lt b
  have hdiff := w.toNat_truncate (w.truncate a - w.truncate b)
  rw [UInt64.toNat_sub] at hdiff
  generalize (w.truncate a).toNat = x at *
  generalize (w.truncate b).toNat = y at *
  cases w <;> simp only [Width.modulus] at * <;> omega

/-- After a comparison the zero flag tells whether the operands are equal. -/
theorem zero_sub (w : Width) (a b : UInt64) :
    (sub w a b).flags.zero = decide (w.signed a = w.signed b) := by
  have ha := w.toNat_truncate_lt a
  have hb := w.toNat_truncate_lt b
  have hd := w.toNat_truncate_lt (w.truncate a - w.truncate b)
  have hwrap := toNat_difference w a b
  have hzero : (sub w a b).flags.zero =
      decide ((w.truncate (w.truncate a - w.truncate b)).toNat = 0) := by
    rw [Bool.eq_iff_iff, decide_eq_true_iff]
    simp only [sub, Flags.ofResult, beq_iff_eq]
    rw [← UInt64.toNat_inj, Width.toNat_truncate, Nat.mod_eq_of_lt hd]
    rfl
  rw [hzero, decide_eq_decide, Width.signed_eq, Width.signed_eq, ← Width.toNat_truncate,
    ← Width.toNat_truncate]
  generalize (w.truncate a).toNat = x at *
  generalize (w.truncate b).toNat = y at *
  generalize (w.truncate (w.truncate a - w.truncate b)).toNat = d at *
  split <;> split <;> omega

/-- After a comparison the flags tell whether the first operand is at least the second. -/
theorem holds_greaterOrEqual_sub (w : Width) (a b : UInt64) :
    Condition.greaterOrEqual.holds (sub w a b).flags = decide (w.signed b ≤ w.signed a) := by
  have hsign : ∀ v : UInt64, v.toNat < w.modulus →
      w.isNegative v = decide (w.modulus ≤ 2 * v.toNat) := by
    intro v hv
    rw [Width.isNegative_eq, Nat.mod_eq_of_lt hv]
  have ha := w.toNat_truncate_lt a
  have hb := w.toNat_truncate_lt b
  have hd := w.toNat_truncate_lt (w.truncate a - w.truncate b)
  have hwrap := toNat_difference w a b
  simp only [sub, Condition.holds, Flags.ofResult, hsign _ ha, hsign _ hb, hsign _ hd]
  rw [Width.signed_eq, Width.signed_eq, ← Width.toNat_truncate, ← Width.toNat_truncate]
  generalize (w.truncate a).toNat = x at *
  generalize (w.truncate b).toNat = y at *
  generalize (w.truncate (w.truncate a - w.truncate b)).toNat = d at *
  rw [Bool.eq_iff_iff, decide_eq_true_iff]
  by_cases hx : w.modulus ≤ 2 * x <;> by_cases hy : w.modulus ≤ 2 * y <;>
    by_cases hz : w.modulus ≤ 2 * d <;> simp [hx, hy, hz] <;> omega

/-- After a comparison a condition holds exactly when the operands are in its order. -/
theorem holds_sub (c : Condition) (w : Width) (a b : UInt64) :
    c.holds (sub w a b).flags = decide (c.Orders (w.signed a) (w.signed b)) := by
  have hzero := zero_sub w a b
  have hsign := holds_greaterOrEqual_sub w a b
  have hgreater : Condition.greater.holds (sub w a b).flags =
      decide (w.signed b < w.signed a) := by
    have hand : Condition.greater.holds (sub w a b).flags =
        (!(sub w a b).flags.zero && Condition.greaterOrEqual.holds (sub w a b).flags) := rfl
    rw [hand, hzero, hsign, Bool.eq_iff_iff]
    simp only [Bool.and_eq_true, Bool.not_eq_true', decide_eq_false_iff_not, decide_eq_true_iff]
    omega
  -- The other three conditions are the negations of these.
  have hnegate : ∀ c : Condition, c.negate.holds (sub w a b).flags =
      !c.holds (sub w a b).flags := fun c => c.holds_negate _
  cases c with
  | equal => exact hzero
  | greaterOrEqual => exact hsign
  | greater => exact hgreater
  | notEqual =>
    refine (hnegate .equal).trans ?_
    rw [Condition.holds, hzero, ← decide_not]
    rfl
  | less =>
    refine (hnegate .greaterOrEqual).trans ?_
    rw [hsign, ← decide_not, decide_eq_decide]
    exact Int.not_le
  | lessOrEqual =>
    refine (hnegate .greater).trans ?_
    rw [hgreater, ← decide_not, decide_eq_decide]
    exact Int.not_lt

end Alu

/-! ## 32-bit integers -/

/-- The word whose low half is a 32-bit integer. -/
def wordOfInt32 (x : Int32) : UInt64 := x.toUInt32.toUInt64

theorem toNat_wordOfInt32 (x : Int32) : (wordOfInt32 x).toNat = x.toUInt32.toNat :=
  UInt32.toNat_toUInt64 x.toUInt32

@[simp] theorem truncate_wordOfInt32 (x : Int32) :
    Width.dword.truncate (wordOfInt32 x) = wordOfInt32 x := by
  apply UInt64.toNat_inj.1
  rw [Width.toNat_truncate, toNat_wordOfInt32]
  exact Nat.mod_eq_of_lt x.toUInt32.toNat_lt

theorem signed_wordOfInt32 (x : Int32) : Width.dword.signed (wordOfInt32 x) = x.toInt := by
  rw [Width.signed, toNat_wordOfInt32]
  exact (BitVec.toInt_eq_toNat_bmod x.toBitVec).symm

/-- The low half of an immediate operand in 32-bit range. -/
theorem truncate_toInt64 (x : Int32) : Width.dword.truncate x.toInt64.toUInt64 = wordOfInt32 x := by
  apply UInt64.toNat_inj.1
  rw [Width.toNat_truncate, toNat_wordOfInt32]
  have hx : x.toInt = (x.toUInt32.toNat : Int).bmod (2 ^ 32) :=
    BitVec.toInt_eq_toNat_bmod x.toBitVec
  have hy : x.toInt64.toInt = (x.toInt64.toUInt64.toNat : Int).bmod (2 ^ 64) :=
    BitVec.toInt_eq_toNat_bmod x.toInt64.toBitVec
  have hlt := x.toUInt32.toNat_lt
  rw [Int32.toInt_toInt64, hx, Int.bmod_def, Int.bmod_def] at hy
  show x.toInt64.toUInt64.toNat % 4294967296 = _
  omega

theorem value_add_wordOfInt32 (x y : Int32) :
    (Alu.add .dword (wordOfInt32 x) (wordOfInt32 y)).value = wordOfInt32 (x + y) := by
  apply UInt64.toNat_inj.1
  simp only [Alu.add, truncate_wordOfInt32, Width.toNat_truncate, UInt64.toNat_add,
    toNat_wordOfInt32, Int32.toUInt32_add, UInt32.toNat_add, Width.modulus]
  omega

end X64
