import X64.Mnemonic
import X64.Proofs.Effect.Destination

/-!
# Exact results and flags

What `add`, `sub`, `cmp`, `and`, `or` and `xor` compute, in terms of numbers. `Mnemonic.Computes` is
the specification: it gives the value from the unsigned readings of the operands, and it says which
flags are set. The carry flag is about the unsigned readings and the overflow flag about the signed
ones, both before anything is reduced to the width.

`Alu.computes_of_operation?` and `Alu.computes_cmp` prove it of the operations of the machine.
-/

namespace X64

/-- The number is in the signed range of the width. -/
def Width.FitsSigned (w : Width) (x : Int) : Prop :=
  -(w.modulus : Int) ≤ 2 * x ∧ 2 * x < w.modulus

instance (w : Width) (x : Int) : Decidable (w.FitsSigned x) :=
  inferInstanceAs (Decidable (_ ∧ _))

/-! ## The specification -/

namespace Mnemonic

/-- What the mnemonic makes of two unsigned numbers of the width. -/
def HasResult (m : Mnemonic) (w : Width) (a b value : Nat) : Prop :=
  match m with
  | .add => value = (a + b) % w.modulus
  | .sub | .cmp => (value : Int) = ((a : Int) - b) % w.modulus
  | .and => value = a &&& b
  | .or => value = a ||| b
  | .xor => value = a ^^^ b
  | _ => False

/-- The exact sum or difference of two unsigned numbers is out of the unsigned range. -/
def Carries (m : Mnemonic) (w : Width) (a b : Nat) : Prop :=
  match m with
  | .add => w.modulus ≤ a + b
  | .sub | .cmp => a < b
  | _ => False

/-- The exact sum or difference of two signed numbers is out of the signed range. -/
def Overflows (m : Mnemonic) (w : Width) (x y : Int) : Prop :=
  match m with
  | .add => ¬w.FitsSigned (x + y)
  | .sub | .cmp => ¬w.FitsSigned (x - y)
  | _ => False

/-- The mnemonic makes this value of two operands at a width, and it leaves these flags. -/
structure Computes (m : Mnemonic) (w : Width) (a b : UInt64) (r : Alu.Result) : Prop where
  value : m.HasResult w a.toNat b.toNat r.value.toNat
  value_lt : r.value.toNat < w.modulus
  zero : r.flags.zero = true ↔ r.value = 0
  sign : r.flags.sign = true ↔ w.signed r.value < 0
  carry : r.flags.carry = true ↔ m.Carries w a.toNat b.toNat
  overflow : r.flags.overflow = true ↔ m.Overflows w (w.signed a) (w.signed b)

end Mnemonic

/-! ## Flags of a result -/

namespace Flags

theorem zero_ofResult {w : Width} {value : UInt64} (h : value.toNat < w.modulus) :
    (ofResult w value).zero = true ↔ value = 0 := by
  rw [ofResult, Width.truncate_of_lt h, beq_iff_eq]

theorem sign_ofResult (w : Width) (value : UInt64) :
    (ofResult w value).sign = true ↔ w.signed value < 0 := by
  have hlt := Nat.mod_lt value.toNat w.modulus_pos
  simp only [ofResult, Width.isNegative_eq, Width.signed_eq, decide_eq_true_iff]
  split <;> omega

end Flags

/-! ## Operations -/

namespace Alu

variable {w : Width} {a b : UInt64}

/-- The sign bit of a number of the width. -/
theorem isNegative_of_lt (h : a.toNat < w.modulus) :
    w.isNegative a = decide (w.modulus ≤ 2 * a.toNat) := by
  rw [Width.isNegative_eq, Nat.mod_eq_of_lt h]

/-- The signed reading of a number of the width. -/
theorem signed_of_lt (h : a.toNat < w.modulus) :
    w.signed a =
      if w.modulus ≤ 2 * a.toNat then (a.toNat : Int) - w.modulus else a.toNat := by
  rw [Width.signed_eq, Nat.mod_eq_of_lt h]

theorem toNat_sum (ha : a.toNat < w.modulus) (hb : b.toNat < w.modulus) :
    (w.truncate (a + b)).toNat = (a.toNat + b.toNat) % w.modulus := by
  rw [Width.toNat_truncate, UInt64.toNat_add]
  cases w <;> simp only [Width.modulus] at * <;> omega

/-- A sum overflows when its sign is not the common sign of its operands. -/
theorem computes_add (ha : a.toNat < w.modulus) (hb : b.toNat < w.modulus) :
    Mnemonic.add.Computes w a b (add w a b) := by
  have hvalue := toNat_sum ha hb
  have hlt := w.toNat_truncate_lt (a + b)
  have hmask := w.toNat_mask
  simp only [add, Width.truncate_of_lt ha, Width.truncate_of_lt hb]
  refine ⟨hvalue, hlt, Flags.zero_ofResult hlt, Flags.sign_ofResult w _, ?_, ?_⟩
  · simp only [decide_eq_true_iff, Mnemonic.Carries]
    omega
  · -- The sum wraps around at most once, so the signs leave linear arithmetic.
    have hwrap : (w.truncate (a + b)).toNat = a.toNat + b.toNat ∨
        (w.truncate (a + b)).toNat + w.modulus = a.toNat + b.toNat := by
      rw [hvalue]
      rcases Nat.lt_or_ge (a.toNat + b.toNat) w.modulus with h | h
      · exact Or.inl (Nat.mod_eq_of_lt h)
      · rw [Nat.mod_eq_sub_mod h, Nat.mod_eq_of_lt (by omega)]
        omega
    simp only [isNegative_of_lt ha, isNegative_of_lt hb, isNegative_of_lt hlt, Mnemonic.Overflows,
      Width.FitsSigned, signed_of_lt ha, signed_of_lt hb]
    generalize (w.truncate (a + b)).toNat = d at *
    by_cases hx : w.modulus ≤ 2 * a.toNat <;> by_cases hy : w.modulus ≤ 2 * b.toNat <;>
      by_cases hd : w.modulus ≤ 2 * d <;> simp [hx, hy, hd] <;> omega

/-- A difference overflows when its operands have different signs and its own is that of the
second. -/
theorem computes_sub (ha : a.toNat < w.modulus) (hb : b.toNat < w.modulus) :
    Mnemonic.sub.Computes w a b (sub w a b) := by
  have hwrap := toNat_difference w a b
  have hlt := w.toNat_truncate_lt (a - b)
  simp only [Width.truncate_of_lt ha, Width.truncate_of_lt hb] at hwrap
  simp only [sub, Width.truncate_of_lt ha, Width.truncate_of_lt hb]
  refine ⟨?_, hlt, Flags.zero_ofResult hlt, Flags.sign_ofResult w _, ?_, ?_⟩
  · simp only [Mnemonic.HasResult]
    rcases hwrap with h | h
    · rw [Int.emod_eq_of_lt] <;> omega
    · rw [← Int.add_emod_right, Int.emod_eq_of_lt] <;> omega
  · simp only [decide_eq_true_iff, Mnemonic.Carries]
    exact UInt64.lt_iff_toNat_lt
  · simp only [isNegative_of_lt ha, isNegative_of_lt hb, isNegative_of_lt hlt, Mnemonic.Overflows,
      Width.FitsSigned, signed_of_lt ha, signed_of_lt hb]
    generalize (w.truncate (a - b)).toNat = d at *
    by_cases hx : w.modulus ≤ 2 * a.toNat <;> by_cases hy : w.modulus ≤ 2 * b.toNat <;>
      by_cases hd : w.modulus ≤ 2 * d <;> simp [hx, hy, hd] <;> omega

/-- A comparison computes the flags of a difference. -/
theorem computes_cmp (ha : a.toNat < w.modulus) (hb : b.toNat < w.modulus) :
    Mnemonic.cmp.Computes w a b (sub w a b) := by
  obtain ⟨hvalue, hlt, hzero, hsign, hcarry, hoverflow⟩ := computes_sub ha hb
  exact ⟨hvalue, hlt, hzero, hsign, hcarry, hoverflow⟩

/-- A logical operation whose value is a number of the width. -/
theorem computes_plain {m : Mnemonic} {value : UInt64} (hlt : value.toNat < w.modulus)
    (hvalue : m.HasResult w a.toNat b.toNat value.toNat) (hcarry : ¬m.Carries w a.toNat b.toNat)
    (hoverflow : ¬m.Overflows w (w.signed a) (w.signed b)) :
    m.Computes w a b (plain w value) := by
  rw [plain, Width.truncate_of_lt hlt]
  refine ⟨hvalue, hlt, Flags.zero_ofResult hlt, Flags.sign_ofResult w value, ?_, ?_⟩
  · simpa [Flags.ofResult] using hcarry
  · simpa [Flags.ofResult] using hoverflow

/-- The operation of a mnemonic computes what the mnemonic says. -/
theorem computes_of_operation? {m : Mnemonic} {op : Operation} (hm : m.operation? = some op)
    (ha : a.toNat < w.modulus) (hb : b.toNat < w.modulus) : m.Computes w a b (op w a b) := by
  have ha' : a.toNat < 2 ^ w.bits := w.modulus_eq_two_pow ▸ ha
  have hb' : b.toNat < 2 ^ w.bits := w.modulus_eq_two_pow ▸ hb
  cases m with
  | add =>
    cases hm
    exact computes_add ha hb
  | sub =>
    cases hm
    exact computes_sub ha hb
  | and =>
    cases hm
    refine computes_plain ?_ (UInt64.toNat_and a b) id id
    rw [UInt64.toNat_and, w.modulus_eq_two_pow]
    exact Nat.and_lt_two_pow _ hb'
  | or =>
    cases hm
    refine computes_plain ?_ (UInt64.toNat_or a b) id id
    rw [UInt64.toNat_or, w.modulus_eq_two_pow]
    exact Nat.or_lt_two_pow ha' hb'
  | xor =>
    cases hm
    refine computes_plain ?_ (UInt64.toNat_xor a b) id id
    rw [UInt64.toNat_xor, w.modulus_eq_two_pow]
    exact Nat.xor_lt_two_pow ha' hb'
  | _ => cases hm

end Alu

end X64
