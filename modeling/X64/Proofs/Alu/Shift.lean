import X64.Proofs.Alu.Exact

/-!
# Shifts by a count

What `shl` and `shr` compute, in terms of numbers: `Mnemonic.shifted` is the value and
`Mnemonic.shiftedOut` the bit that is left in the carry flag. The count may be larger than the
width, since it is only masked to five or six bits.

The two functions have a law for a count that grows by one, so the machine's shifts have it as well
(`Alu.shift_succ`): a shift by one more place is the same shift followed by a single-bit shift, in
value and in flags.
-/

namespace X64

namespace Width

variable (w : Width)

theorem bits_pos : 0 < w.bits := by
  cases w <;> decide

theorem bits_le : w.bits ≤ 64 := by
  cases w <;> decide

theorem toNat_ofNat_bits : (UInt64.ofNat w.bits).toNat = w.bits := by
  cases w <;> rfl

theorem modulus_dvd : w.modulus ∣ 2 ^ 64 := by
  rw [modulus_eq_two_pow]
  exact Nat.pow_dvd_pow 2 w.bits_le

/-- The width has at least as many bits as the count. -/
theorem le_ofNat_bits {count : UInt64} : count ≤ UInt64.ofNat w.bits ↔ count.toNat ≤ w.bits := by
  rw [UInt64.le_iff_toNat_le, toNat_ofNat_bits]

end Width

/-! ## The specification -/

namespace Mnemonic

/-- A number of the width, shifted by a count. -/
def shifted (m : Mnemonic) (w : Width) (v count : Nat) : Nat :=
  match m with
  | .shl => v * 2 ^ count % w.modulus
  | .shr => v / 2 ^ count
  | _ => v

/-- The last bit that a shift by a count moves out of the width. -/
def shiftedOut (m : Mnemonic) (w : Width) (v count : Nat) : Bool :=
  match m with
  | .shl => (v * 2 ^ count).testBit w.bits
  | .shr => v.testBit (count - 1)
  | _ => false

/-- The mnemonic makes this value of a number that it shifts by a count, and it leaves these
flags. -/
structure Shifts (m : Mnemonic) (w : Width) (v count : Nat) (r : Alu.Result) : Prop where
  value : r.value.toNat = m.shifted w v count
  flags : r.flags = { Flags.ofResult w r.value with carry := m.shiftedOut w v count }

/-- The same for a single place: what happens to the number, and the bit at its end that is moved
out. -/
structure ShiftsOnce (m : Mnemonic) (w : Width) (v : Nat) (r : Alu.Result) : Prop where
  left : m = .shl → r.value.toNat = 2 * v % w.modulus ∧ r.flags.carry = v.testBit (w.bits - 1)
  right : m = .shr → r.value.toNat = v / 2 ∧ r.flags.carry = v.testBit 0
  value_lt : r.value.toNat < w.modulus
  zero : r.flags.zero = true ↔ r.value = 0
  sign : r.flags.sign = true ↔ w.signed r.value < 0
  overflow : r.flags.overflow = false

variable {m : Mnemonic} {w : Width} {v count : Nat}

theorem shifted_succ : m.shifted w v (count + 1) = m.shifted w (m.shifted w v count) 1 := by
  cases m with
  | shl =>
    simp only [shifted, Nat.pow_succ, Nat.pow_zero, Nat.one_mul]
    rw [Nat.mod_mul_mod, Nat.mul_assoc]
  | shr =>
    simp only [shifted, Nat.pow_succ, Nat.pow_zero, Nat.one_mul]
    rw [Nat.div_div_eq_div_mul]
  | _ => rfl

/-- The bit that the last single-bit shift moves out is the one that the whole shift leaves. -/
theorem shiftedOut_succ :
    m.shiftedOut w v (count + 1) = m.shiftedOut w (m.shifted w v count) 1 := by
  cases m with
  | shl =>
    obtain ⟨n, hn⟩ : ∃ n, w.bits = n + 1 := ⟨w.bits - 1, by cases w <;> rfl⟩
    simp only [shiftedOut, shifted, Width.modulus_eq_two_pow, hn, Nat.pow_succ, Nat.pow_zero,
      Nat.one_mul, ← Nat.mul_assoc]
    rw [Nat.testBit_succ, Nat.testBit_succ, Nat.mul_div_cancel _ Nat.two_pos,
      Nat.mul_div_cancel _ Nat.two_pos, ← Nat.pow_succ, Nat.testBit_mod_two_pow]
    simp
  | shr =>
    simp only [shiftedOut, shifted, Nat.add_sub_cancel]
    rw [Nat.testBit_div_two_pow, Nat.sub_self, Nat.zero_add]
  | _ => rfl

theorem shifted_lt (hv : v < w.modulus) : m.shifted w v count < w.modulus := by
  cases m with
  | shl => exact Nat.mod_lt _ w.modulus_pos
  | shr => exact Nat.lt_of_le_of_lt (Nat.div_le_self v _) hv
  | _ => exact hv

/-- The specification leaves nothing open. -/
theorem Shifts.unique {r r' : Alu.Result} (h : m.Shifts w v count r) (h' : m.Shifts w v count r') :
    r = r' := by
  obtain ⟨value, flags⟩ := r
  obtain ⟨value', flags'⟩ := r'
  obtain rfl : value = value' := UInt64.toNat_inj.1 (h.value.trans h'.value.symm)
  exact congrArg _ (h.flags.trans h'.flags.symm)

theorem Shifts.value_lt {r : Alu.Result} (h : m.Shifts w v count r) (hv : v < w.modulus) :
    r.value.toNat < w.modulus :=
  h.value ▸ shifted_lt hv

theorem Shifts.once {r : Alu.Result} (h : m.Shifts w v 1 r) (hv : v < w.modulus) :
    m.ShiftsOnce w v r := by
  obtain ⟨value, flags⟩ := r
  have hvalue : value.toNat = m.shifted w v 1 := h.value
  obtain rfl : flags = { Flags.ofResult w value with carry := m.shiftedOut w v 1 } := h.flags
  have hlt : value.toNat < w.modulus := h.value_lt hv
  refine ⟨?_, ?_, hlt, Flags.zero_ofResult hlt, Flags.sign_ofResult w value, rfl⟩
  · rintro rfl
    refine ⟨?_, ?_⟩
    · rw [hvalue, shifted, Nat.pow_one, Nat.mul_comm]
    · have hpos : 1 ≤ w.bits := w.bits_pos
      simp only [shiftedOut]
      rw [Nat.testBit_mul_two_pow, decide_eq_true hpos, Bool.true_and]
  · rintro rfl
    exact ⟨hvalue, rfl⟩

end Mnemonic

/-! ## The operations -/

namespace Alu

variable {m : Mnemonic} {w : Width} {v count : UInt64} {op : Operation}

theorem bit_eq_testBit {i : UInt64} (hi : i.toNat < 64) : bit v i = v.toNat.testBit i.toNat := by
  rw [Bool.eq_iff_iff, bit, beq_iff_eq, ← UInt64.toNat_inj, UInt64.toNat_and,
    UInt64.toNat_shiftRight, Nat.mod_eq_of_lt hi, show (1 : UInt64).toNat = 1 from rfl,
    Nat.and_one_is_mod, Nat.shiftRight_eq_div_pow, Nat.testBit_eq_decide_div_mod_eq,
    decide_eq_true_iff]

theorem toNat_shiftCount (w : Width) (count : UInt64) :
    (shiftCount w count).toNat = count.toNat % if w = .qword then 64 else 32 := by
  rw [shiftCount, UInt64.toNat_and]
  split
  · exact Nat.and_two_pow_sub_one_eq_mod count.toNat 6
  · exact Nat.and_two_pow_sub_one_eq_mod count.toNat 5

theorem shifts_shiftLeft (hv : v.toNat < w.modulus) (hpos : 0 < count.toNat)
    (hlt : count.toNat < 64) : Mnemonic.shl.Shifts w v.toNat count.toNat (shiftLeft w v count) := by
  have hbits := w.bits_le
  simp only [shiftLeft, Width.truncate_of_lt hv]
  refine ⟨?_, ?_⟩
  · rw [Width.toNat_truncate, UInt64.toNat_shiftLeft, Nat.mod_eq_of_lt hlt, Nat.shiftLeft_eq]
    exact Nat.mod_mod_of_dvd _ w.modulus_dvd
  · -- A count above the width moves all bits out before the last place.
    have hcarry : (decide (count ≤ UInt64.ofNat w.bits) && bit v (UInt64.ofNat w.bits - count)) =
        (v.toNat * 2 ^ count.toNat).testBit w.bits := by
      rw [Nat.testBit_mul_two_pow]
      by_cases h : count.toNat ≤ w.bits
      · have hsub : (UInt64.ofNat w.bits - count).toNat = w.bits - count.toNat := by
          rw [UInt64.toNat_sub_of_le _ _ (w.le_ofNat_bits.2 h), w.toNat_ofNat_bits]
        rw [bit_eq_testBit (by omega), hsub]
        simp [w.le_ofNat_bits, h]
      · simp [w.le_ofNat_bits, h]
    rw [hcarry]
    rfl

theorem shifts_shiftRight (hv : v.toNat < w.modulus) (hpos : 0 < count.toNat)
    (hlt : count.toNat < 64) :
    Mnemonic.shr.Shifts w v.toNat count.toNat (shiftRight w v count) := by
  have hbits := w.bits_le
  have hsmall : ∀ {k : Nat}, w.bits ≤ k → v.toNat < 2 ^ k := fun hk =>
    Nat.lt_of_lt_of_le (w.modulus_eq_two_pow ▸ hv) (Nat.pow_le_pow_right Nat.two_pos hk)
  have hone : (count - 1).toNat = count.toNat - 1 :=
    UInt64.toNat_sub_of_le _ _ (UInt64.le_iff_toNat_le.2 hpos)
  simp only [shiftRight, Width.truncate_of_lt hv]
  refine ⟨?_, ?_⟩
  · simp only [Mnemonic.shifted]
    split
    · next hle =>
      rw [UInt64.le_iff_toNat_le, w.toNat_ofNat_bits] at hle
      exact (Nat.div_eq_of_lt (hsmall hle)).symm
    · rw [UInt64.toNat_shiftRight, Nat.mod_eq_of_lt hlt, Nat.shiftRight_eq_div_pow]
  · have hcarry : (decide (count ≤ UInt64.ofNat w.bits) && bit v (count - 1)) =
        v.toNat.testBit (count.toNat - 1) := by
      rw [bit_eq_testBit (by omega), hone]
      by_cases h : count.toNat ≤ w.bits
      · simp [w.le_ofNat_bits, h]
      · rw [Nat.testBit_lt_two_pow (hsmall (by omega)), Bool.and_false]
    rw [hcarry]
    rfl

/-- The shift of a mnemonic computes what the mnemonic says. -/
theorem shifts_of_shift? (hm : m.shift? = some op) (hv : v.toNat < w.modulus)
    (hpos : 0 < count.toNat) (hlt : count.toNat < 64) :
    m.Shifts w v.toNat count.toNat (op w v count) := by
  cases m with
  | shl =>
    cases hm
    exact shifts_shiftLeft hv hpos hlt
  | shr =>
    cases hm
    exact shifts_shiftRight hv hpos hlt
  | _ => cases hm

theorem shifts_ofNat (hm : m.shift? = some op) (hv : v.toNat < w.modulus) {n : Nat} (hpos : 0 < n)
    (hlt : n < 64) : m.Shifts w v.toNat n (op w v (UInt64.ofNat n)) := by
  have hcount : (UInt64.ofNat n).toNat = n :=
    UInt64.toNat_ofNat_of_lt' (Nat.lt_trans hlt (by decide))
  have h : m.Shifts w v.toNat (UInt64.ofNat n).toNat (op w v (UInt64.ofNat n)) :=
    shifts_of_shift? hm hv (by rwa [hcount]) (by rwa [hcount])
  rwa [hcount] at h

theorem shiftsOnce_of_shift? (hm : m.shift? = some op) (hv : v.toNat < w.modulus) :
    m.ShiftsOnce w v.toNat (op w v 1) := by
  have h : m.Shifts w v.toNat 1 (op w v 1) := shifts_ofNat hm hv Nat.one_pos (by decide)
  exact h.once hv

/-- A shift by one more place is followed by a single-bit shift. -/
theorem shift_succ (hm : m.shift? = some op) (hv : v.toNat < w.modulus) {n : Nat} (hpos : 0 < n)
    (hlt : n + 1 < 64) :
    op w v (UInt64.ofNat (n + 1)) = op w (op w v (UInt64.ofNat n)).value 1 := by
  have hfirst := shifts_ofNat hm hv hpos (Nat.lt_of_succ_lt hlt)
  have hlast := shifts_ofNat hm (hfirst.value_lt hv) Nat.one_pos (by decide)
  refine (shifts_ofNat hm hv (Nat.succ_pos n) hlt).unique ⟨?_, ?_⟩
  · rw [Mnemonic.shifted_succ, ← hfirst.value]
    exact hlast.value
  · rw [Mnemonic.shiftedOut_succ, ← hfirst.value]
    exact hlast.flags

end Alu

end X64
