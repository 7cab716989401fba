import X64.Operand
import Mathlib.Tactic.Common

/-!
# Words and effective addresses

The first lemmas relate words to the integers that they stand for modulo `2 ^ 64`.

The address of a memory operand is the sum of its base register and its displacement, which may be
negative. The sum is taken modulo `2 ^ 64`, so it is `Reference.toNat_address` that says which byte
of memory a reference begins at.
-/

namespace X64

/-- A word is congruent to the signed number with the same bits. -/
theorem toNat_toUInt64 (x : Int64) : (x.toUInt64.toNat : Int) = x.toInt % UInt64.size := by
  have hbits : x.toInt = Int.bmod x.toUInt64.toNat UInt64.size := BitVec.toInt_eq_toNat_bmod _
  have hlt := x.toUInt64.toNat_lt
  rw [hbits, Int.bmod_emod]
  unfold UInt64.size
  omega

theorem toNat_ofInt (z : Int) : ((UInt64.ofInt z).toNat : Int) = z % UInt64.size := by
  rw [UInt64.ofInt, UInt64.toNat_ofNat']
  unfold UInt64.size
  omega

theorem ofInt_natCast (n : Nat) : UInt64.ofInt n = UInt64.ofNat n := by
  apply UInt64.toNat_inj.1
  have hword := toNat_ofInt n
  rw [UInt64.toNat_ofNat']
  unfold UInt64.size at hword
  omega

theorem ofInt_toNat (v : UInt64) : UInt64.ofInt v.toNat = v := by
  rw [ofInt_natCast, UInt64.ofNat_toNat]

/-- A signed number has the bits of an integer if the two are congruent. -/
theorem toUInt64_eq_ofInt_iff {x : Int64} {z : Int} :
    x.toUInt64 = UInt64.ofInt z ↔ x.toInt % UInt64.size = z % UInt64.size := by
  rw [← toNat_toUInt64, ← toNat_ofInt, Int.ofNat_inj, UInt64.toNat_inj]

namespace Reference

/-- The value of the base register, or zero if there is none. -/
def baseValue (m : Reference) (s : State) : Nat :=
  match m.base with
  | some r => (s.get r).toNat
  | none => 0

theorem toNat_address (m : Reference) (s : State) :
    ((m.address s).toNat : Int) = (m.baseValue s + m.displacement.toInt) % UInt64.size := by
  have hsum : (m.address s).toNat =
      (m.baseValue s + m.displacement.toUInt64.toNat) % UInt64.size := by
    unfold address baseValue
    cases m.base <;> exact UInt64.toNat_add _ _
  rw [hsum, Int.natCast_emod, Int.natCast_add, toNat_toUInt64, Int.add_emod_emod]

end Reference

end X64
