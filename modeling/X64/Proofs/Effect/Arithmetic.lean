import X64.Proofs.Alu.Exact

/-!
# Arithmetic instructions

`add`, `sub`, `and`, `or`, `xor` and `cmp` take two operands at one width. `arithmetic_is_exact`
says all about one that succeeds: the values of the operands before it, the exact result and the
flags, what the destination holds afterwards and which of its bits are kept.

The result of an instruction with a destination is written first, and `rip` moves on then. So the
destination is read back through `Operand.read_congr`, which needs that it does not depend on `rip`.
-/

namespace X64

theorem Mnemonic.shift?_of_mem {m : Mnemonic}
    (h : m ∈ [Mnemonic.add, .sub, .and, .or, .xor, .cmp]) : m.shift? = none := by
  cases m <;> first | rfl | simp at h

/-- After an instruction that writes its result and moves on, a register holds the result in its
view and nothing else that is new. -/
theorem Operand.get_of_write_advance {memory : Memory} {state : State} {e : Effect} {w : Width}
    {value : UInt64} {v : View} (hrip : v.register ≠ .rip)
    (hwrite : (register v).write memory state w value = .ok e) (flags : Flags) :
    (e.state.withFlags flags).advance.get v.register = (state.write v value).get v.register := by
  cases hwrite
  exact State.get_advance_of_ne _ hrip

/-- Arithmetic is exact. An `add`, `sub`, `and`, `or`, `xor` or `cmp` that succeeds takes the
unsigned values of its two operands at their width, and computes the value and the flags that
`Mnemonic.Computes` gives for them. A `cmp` stores nothing. Every other one writes the value to its
destination. Unless that depends on `rip`, it reads as the value afterwards. If it is a register, a
dword view has its upper half cleared, and a byte or word view keeps the other bits. -/
theorem arithmetic_is_exact {i : Instruction} {memory : Memory} {state : State} {e : Effect}
    (hm : i.mnemonic ∈ [.add, .sub, .and, .or, .xor, .cmp]) (h : i.effect memory state = .ok e) :
    ∃ dst src w a b r, i.operands = [dst, src] ∧ i.commonWidth dst src = .ok w ∧
      dst.read memory state w = .ok a ∧ src.read memory state w = .ok b ∧
      a.toNat < w.modulus ∧ b.toNat < w.modulus ∧
      i.mnemonic.Computes w a b r ∧ e.state.flags = r.flags ∧
      (i.mnemonic = .cmp → e.commit memory = memory ∧
        ∀ q, q ≠ .rip → e.state.get q = state.get q) ∧
      (i.mnemonic ≠ .cmp →
        (∃ written, dst.write memory state w r.value = .ok written ∧
          e = written.mapState fun s => (s.withFlags r.flags).advance) ∧
        (¬dst.DependsOn .rip → dst.read (e.commit memory) e.state w = .ok r.value) ∧
        ∀ v, dst = .register v → v.register ≠ .rip → v.width = w ∧
          (w = .dword → (e.state.get v.register).toNat < 2 ^ 32) ∧
          (w = .byte ∨ w = .word →
            (e.state.get v.register).toNat / w.modulus =
              (state.get v.register).toNat / w.modulus)) := by
  cases Instruction.performs_of_effect h with
  | @binary op dst src w a b written hop ho hw ha hb hwrite =>
    have hcomputes := Alu.computes_of_operation? hop (Operand.toNat_lt_of_read ha)
      (Operand.toNat_lt_of_read hb)
    have hgetD := (Instruction.commonWidth_eq_ok_iff.1 hw).1
    refine ⟨dst, src, w, a, b, op w a b, ho, hw, ha, hb, Operand.toNat_lt_of_read ha,
      Operand.toNat_lt_of_read hb, hcomputes, rfl, fun hcmp => ?_, fun _ =>
      ⟨⟨written, hwrite, rfl⟩, fun hrip => ?_, ?_⟩⟩
    · rw [hcmp] at hop
      cases hop
    · have hread := Operand.read_of_write_advance hgetD hrip hwrite (op w a b).flags
      rwa [Width.truncate_of_lt hcomputes.value_lt] at hread
    · rintro v rfl hrip
      have hwidth : v.width = w := hgetD
      have hget := Operand.get_of_write_advance hrip hwrite (op w a b).flags
      refine ⟨hwidth, fun hdword => ?_, fun hnarrow => ?_⟩
      · exact hget ▸ State.toNat_get_write_of_dword (hwidth.trans hdword)
      · subst hwidth
        exact hget ▸ State.get_write_div_of_narrow hnarrow
  | @cmp dst src w a b hcmp ho hw ha hb =>
    refine ⟨dst, src, w, a, b, Alu.sub w a b, ho, hw, ha, hb, Operand.toNat_lt_of_read ha,
      Operand.toNat_lt_of_read hb, ?_, rfl, fun _ => ⟨rfl, fun q hq => ?_⟩, fun hne => ?_⟩
    · rw [hcmp]
      exact Alu.computes_cmp (Operand.toNat_lt_of_read ha) (Operand.toNat_lt_of_read hb)
    · exact State.get_advance_of_ne _ hq
    · exact absurd hcmp hne
  | shiftByZero hshift | shift hshift =>
    rw [Mnemonic.shift?_of_mem hm] at hshift
    cases hshift
  | _ => simp_all

/-- The instruction `sub al, 1`. -/
def subLow : Instruction := ⟨.sub, [.register ⟨.rax, .byte⟩, .immediate 1], 1⟩

/-- The least signed byte less one overflows without a carry, and the rest of `rax` is kept. -/
theorem subLow_is_exact :
    ∃ e, subLow.effect (Memory.zeroed 0) (({} : State).set .rax 0x1280) = .ok e ∧
      (Operand.register ⟨.rax, .byte⟩).read (Memory.zeroed 0) e.state .byte = .ok 0x7f ∧
      (e.state.get .rax).toNat / 256 = 0x12 ∧ e.state.flags.carry = false ∧
      e.state.flags.overflow = true := by
  obtain ⟨e, he⟩ : ∃ e, subLow.effect (Memory.zeroed 0) (({} : State).set .rax 0x1280) = .ok e :=
    ⟨_, rfl⟩
  obtain ⟨dst, src, w, a, b, r, ho, hw, ha, hb, -, -, hcomputes, hflags, -, hdst⟩ :=
    arithmetic_is_exact (by decide) he
  obtain ⟨rfl, rfl⟩ : Operand.register ⟨.rax, .byte⟩ = dst ∧ Operand.immediate 1 = src := by
    simpa [subLow] using ho
  cases hw
  obtain rfl : 0x80 = a := Except.ok.inj ha
  obtain rfl : 1 = b := Except.ok.inj hb
  obtain ⟨-, hread, hregister⟩ := hdst (by decide)
  have hvalue : r.value = 0x7f := by
    have hresult : (r.value.toNat : Int) = (128 - 1) % 256 := hcomputes.value
    apply UInt64.toNat_inj.1
    show r.value.toNat = 127
    omega
  have hmemory : e.commit (Memory.zeroed 0) = Memory.zeroed 0 := by
    cases he
    rfl
  refine ⟨e, he, ?_, ?_, ?_, ?_⟩
  · rw [← hvalue, ← hread (by decide), hmemory]
  · obtain ⟨-, -, hkept⟩ := hregister _ rfl (by decide)
    exact hkept (.inl rfl)
  · rw [hflags, Bool.eq_false_iff]
    exact mt hcomputes.carry.1 (show ¬128 < 1 by decide)
  · rw [hflags]
    exact hcomputes.overflow.2
      (show ¬Width.byte.FitsSigned (Width.byte.signed 128 - Width.byte.signed 1) by decide)

end X64
