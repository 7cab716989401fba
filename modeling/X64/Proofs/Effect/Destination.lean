import X64.Proofs.Alu
import X64.Proofs.Effect.Rules
import X64.Proofs.Memory

/-!
# Writing to a destination and reading it again

The result of an instruction goes to a register view or to memory. What is read there afterwards is
the result, as long as the operand still denotes the same place. `rip` moves on in every
instruction, so this is said of operands that do not depend on it (`Operand.DependsOn`).

* A view of a register is a part of it. `Width.toNat_and_not_mask_or` gives a register after a
  narrow write as a number, and the laws about `State.merge` follow from it.
* `Operand.read_of_write` reads a result back, and `Operand.write_of_write` says that a second
  result at the same place replaces the first.
* States that agree except for `rip` and the flags (`State.AgreesOffRip`) are the same to an operand
  that does not depend on `rip`.
-/

namespace X64

namespace Width

/-- The high bits of one word with the low bits of another. -/
theorem toNat_and_not_mask_or (w : Width) (high low : UInt64) :
    ((high &&& ~~~w.mask) ||| w.truncate low).toNat =
      w.modulus * (high.toNat / w.modulus) + low.toNat % w.modulus := by
  have hnot : (~~~w.mask).toNat = 2 ^ 64 - (w.mask.toNat + 1) := by
    rw [UInt64.toNat_not, Nat.sub_add_eq, Nat.sub_right_comm]
    rfl
  apply Nat.eq_of_testBit_eq
  intro i
  rw [UInt64.toNat_or, UInt64.toNat_and, hnot, toNat_truncate, Nat.testBit_or, Nat.testBit_and,
    Nat.testBit_two_pow_sub_succ w.mask.toNat_lt, toNat_mask, modulus_eq_two_pow,
    Nat.testBit_two_pow_sub_one, Nat.testBit_mod_two_pow,
    Nat.testBit_two_pow_mul_add _ (Nat.mod_lt _ (Nat.two_pow_pos w.bits)), Nat.testBit_mod_two_pow,
    Nat.testBit_div_two_pow]
  by_cases hi : i < w.bits
  · simp [hi]
  · rw [Nat.sub_add_cancel (Nat.le_of_not_lt hi)]
    -- No bit of a word lies above its top.
    have hbit : high.toNat.testBit i = true → i < 64 := by
      intro hset
      refine Classical.byContradiction fun hout => ?_
      have hlt : high.toNat < 2 ^ i :=
        Nat.lt_of_lt_of_le high.toNat_lt (Nat.pow_le_pow_right (by decide) (Nat.le_of_not_lt hout))
      rw [Nat.testBit_lt_two_pow hlt] at hset
      cases hset
    simpa [hi] using hbit

end Width

/-! ## Views -/

namespace State

theorem toNat_merge_of_narrow {w : Width} (hw : w = .byte ∨ w = .word) (old value : UInt64) :
    (merge w old value).toNat =
      w.modulus * (old.toNat / w.modulus) + value.toNat % w.modulus := by
  rcases hw with rfl | rfl <;> exact Width.toNat_and_not_mask_or _ old value

theorem narrow_or_wide (w : Width) : (w = .byte ∨ w = .word) ∨ w = .dword ∨ w = .qword := by
  cases w <;> simp

theorem truncate_merge (w : Width) (old value : UInt64) :
    w.truncate (merge w old value) = w.truncate value := by
  rcases narrow_or_wide w with hw | hw
  · apply UInt64.toNat_inj.1
    rw [Width.toNat_truncate, Width.toNat_truncate, toNat_merge_of_narrow hw, Nat.mul_add_mod,
      Nat.mod_mod]
  · rw [merge_of_wide hw, Width.truncate_truncate]

/-- A narrow write leaves the bits above its width alone. -/
theorem toNat_merge_div_of_narrow {w : Width} (hw : w = .byte ∨ w = .word) (old value : UInt64) :
    (merge w old value).toNat / w.modulus = old.toNat / w.modulus := by
  rw [toNat_merge_of_narrow hw, Nat.mul_add_div w.modulus_pos,
    Nat.div_eq_of_lt (Nat.mod_lt _ w.modulus_pos), Nat.add_zero]

/-- Of two writes to a view the second one counts. -/
theorem merge_merge (w : Width) (old value value' : UInt64) :
    merge w (merge w old value) value' = merge w old value' := by
  rcases narrow_or_wide w with hw | hw
  · apply UInt64.toNat_inj.1
    rw [toNat_merge_of_narrow hw, toNat_merge_div_of_narrow hw, toNat_merge_of_narrow hw]
  · rw [merge_of_wide hw, merge_of_wide hw]

theorem read_write (s : State) (v : View) (value : UInt64) :
    (s.write v value).read v = v.width.truncate value := by
  rw [read, write, get_set_self, truncate_merge]

theorem get_write_self (s : State) (v : View) (value : UInt64) :
    (s.write v value).get v.register = merge v.width (s.get v.register) value :=
  get_set_self s v.register _

theorem get_write_of_ne (s : State) {v : View} {r : Register} (h : r ≠ v.register)
    (value : UInt64) : (s.write v value).get r = s.get r :=
  get_set_of_ne s h _

/-- A dword view takes the whole register: its upper half is zero. -/
theorem toNat_get_write_of_dword {s : State} {v : View} {value : UInt64} (hv : v.width = .dword) :
    ((s.write v value).get v.register).toNat < 2 ^ 32 := by
  rw [get_write_self, merge_of_wide (Or.inl hv), Width.toNat_truncate, hv]
  exact Nat.mod_lt _ (by decide)

/-- A narrow view leaves the bits above it alone. -/
theorem get_write_div_of_narrow {s : State} {v : View} {value : UInt64}
    (hv : v.width = .byte ∨ v.width = .word) :
    ((s.write v value).get v.register).toNat / v.width.modulus =
      (s.get v.register).toNat / v.width.modulus := by
  rw [get_write_self, toNat_merge_div_of_narrow hv]

/-- The registers other than `rip` are the same. -/
def AgreesOffRip (s t : State) : Prop := ∀ r, r ≠ .rip → s.get r = t.get r

theorem AgreesOffRip.symm {s t : State} (h : s.AgreesOffRip t) : t.AgreesOffRip s :=
  fun r hr => (h r hr).symm

theorem AgreesOffRip.trans {s t u : State} (h : s.AgreesOffRip t) (h' : t.AgreesOffRip u) :
    s.AgreesOffRip u :=
  fun r hr => (h r hr).trans (h' r hr)

theorem agreesOffRip_advance (s : State) : s.advance.AgreesOffRip s :=
  fun _ hr => get_advance_of_ne s hr

end State

/-! ## Operands -/

theorem Reference.address_congr {m : Reference} {s t : State} (hbase : m.base ≠ some .rip)
    (h : s.AgreesOffRip t) : m.address s = m.address t := by
  unfold address
  cases hr : m.base with
  | none => rfl
  | some r =>
    have hne : r ≠ .rip := fun heq => hbase (by rw [hr, heq])
    simp only [h r hne]

namespace Operand

/-- The operand is a view of the register, or its address is computed from it. -/
def DependsOn (o : Operand) (r : Register) : Prop :=
  match o with
  | .register v => v.register = r
  | .memory m => m.base = some r
  | .immediate _ | .label .. => False

instance (o : Operand) (r : Register) : Decidable (o.DependsOn r) :=
  match o with
  | .register v => inferInstanceAs (Decidable (v.register = r))
  | .memory m => inferInstanceAs (Decidable (m.base = some r))
  | .immediate _ | .label .. => inferInstanceAs (Decidable False)

variable {o : Operand} {memory : Memory} {state t : State} {w : Width} {value : UInt64}
  {e : Effect}

theorem toNat_lt_of_read (h : o.read memory state w = .ok value) : value.toNat < w.modulus := by
  cases o with
  | register v =>
    cases h
    exact w.toNat_truncate_lt _
  | immediate x =>
    cases h
    exact w.toNat_truncate_lt _
  | memory m => exact Memory.toNat_lt_of_read (mapError_eq_ok_iff.1 h)
  | label name target => cases h

theorem read_congr (ho : ¬o.DependsOn .rip) (h : state.AgreesOffRip t) :
    o.read memory state w = o.read memory t w := by
  cases o with
  | register v => rw [read, read, State.read, State.read, h v.register ho]
  | immediate x => rfl
  | memory m => rw [read, read, Reference.address_congr ho h]
  | label name target => rfl

/-- Whether a write succeeds does not depend on the value. -/
theorem exists_write (h : o.write memory state w value = .ok e) (value' : UInt64) :
    ∃ e', o.write memory state w value' = .ok e' := by
  rcases write_eq_ok_iff.1 h with ⟨v, rfl, -⟩ | ⟨m, rfl, hin, -⟩
  · exact ⟨_, rfl⟩
  · exact ⟨_, storeEffect_eq hin⟩

/-- A value that was written is read back at its width. -/
theorem read_of_write (hw : o.width?.getD w = w) (h : o.write memory state w value = .ok e) :
    o.read (e.commit memory) e.state w = .ok (w.truncate value) := by
  rcases write_eq_ok_iff.1 h with ⟨v, rfl, rfl⟩ | ⟨m, rfl, hin, rfl⟩
  · have hwidth : v.width = w := hw
    rw [read, State.read_write, hwidth, Width.truncate_truncate]
  · exact mapError_eq_ok_iff.2 (Memory.read_store_self hin value)

/-- After an instruction that writes its result, sets flags and moves on, the destination reads as
the result. -/
theorem read_of_write_advance (hw : o.width?.getD w = w) (ho : ¬o.DependsOn .rip)
    (h : o.write memory state w value = .ok e) (flags : Flags) :
    o.read (e.commit memory) (e.state.withFlags flags).advance w = .ok (w.truncate value) := by
  rw [← read_of_write hw h]
  exact read_congr ho (State.agreesOffRip_advance _)

/-- A second value that is written to the same place replaces the first. -/
theorem write_of_write (ho : ¬o.DependsOn .rip) (h : o.write memory state w value = .ok e)
    (hagrees : t.AgreesOffRip e.state) (value' : UInt64) :
    ∃ e₁ e₂, o.write memory state w value' = .ok e₁ ∧
      o.write (e.commit memory) t w value' = .ok e₂ ∧
      e₂.commit (e.commit memory) = e₁.commit memory ∧ e₂.state.AgreesOffRip e₁.state := by
  rcases write_eq_ok_iff.1 h with ⟨v, rfl, rfl⟩ | ⟨m, rfl, hin, rfl⟩
  · refine ⟨_, _, rfl, rfl, rfl, fun r hr => ?_⟩
    have hvalue := hagrees v.register ho
    rw [State.get_write_self] at hvalue
    by_cases heq : r = v.register
    · rw [heq, State.get_write_self, State.get_write_self, hvalue, State.merge_merge]
    · rw [State.get_write_of_ne _ heq, State.get_write_of_ne _ heq, hagrees r hr,
        State.get_write_of_ne _ heq]
  · have haddress : m.address t = m.address state := Reference.address_congr ho hagrees
    refine ⟨_, ⟨t, some ⟨m.address state, w, value'⟩⟩, storeEffect_eq hin, ?_, ?_, hagrees⟩
    · rw [write, haddress]
      refine storeEffect_eq ?_
      rw [Memory.InBounds, Effect.size_commit]
      exact hin
    · simp only [Effect.commit]
      exact Memory.store_store memory _ (by rw [length_bytesOfWord, length_bytesOfWord])

end Operand

end X64
