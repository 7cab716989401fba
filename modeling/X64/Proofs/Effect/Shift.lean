import X64.Proofs.Alu.Shift

/-!
# Shift instructions

A shift by a count is that many single-bit shifts of the same destination
(`shift_is_repeated_single_shift`). The proof is by induction on the count. The single-bit shift
after the first `n` reads back what they have left at the destination, and what it writes there
replaces that, so `Alu.shift_succ` is all that has to be known about the operation.

The count is read once. Where it is read from plays no role after that, so the destination may be
the count register itself.
-/

namespace X64

namespace Instruction

/-- Memory and registers after the instruction has been executed a number of times. -/
def times (i : Instruction) : Nat → Memory → State → Except ExecutionError (Memory × State)
  | 0, memory, state => .ok (memory, state)
  | n + 1, memory, state => do
    let (memory, state) ← i.times n memory state
    let e ← i.effect memory state
    pure (e.commit memory, e.state)

variable {i j : Instruction} {op : Alu.Operation} {memory memory' : Memory} {state state' : State}
  {e : Effect} {dst src : Operand} {w : Width} {count v : UInt64} {n : Nat}

theorem times_succ (htimes : i.times n memory state = .ok (memory', state'))
    (h : i.effect memory' state' = .ok e) :
    i.times (n + 1) memory state = .ok (e.commit memory', e.state) := by
  simp only [times, htimes, ok_bind, h]
  rfl

theorem effect_shiftByZero (hm : i.mnemonic.shift? = some op) (ho : i.operands = [dst, src])
    (hw : dst.width? = some w) (hcount : src.read memory state .byte = .ok count)
    (hzero : Alu.shiftCount w count = 0) : i.effect memory state = .ok { state := state.advance } :=
  effect_of_performs (.shiftByZero hm ho hw hcount hzero)

theorem effect_shift_eq_ok_iff (hm : i.mnemonic.shift? = some op) (ho : i.operands = [dst, src])
    (hw : dst.width? = some w) (hcount : src.read memory state .byte = .ok count)
    (hne : Alu.shiftCount w count ≠ 0) :
    i.effect memory state = .ok e ↔
      ∃ v written, dst.read memory state w = .ok v ∧
        dst.write memory state w (op w v (Alu.shiftCount w count)).value = .ok written ∧
        e = written.mapState fun s =>
          (s.withFlags (op w v (Alu.shiftCount w count)).flags).advance := by
  rw [effect, Mnemonic.handler?_of_shift? hm]
  simp only [Handler.shift, pair_eq ho, ok_bind, hw, hcount, if_neg hne, bind_eq_ok_iff]
  constructor
  · rintro ⟨v, hread, written, hwrite, heq⟩
    exact ⟨v, written, hread, hwrite, (Except.ok.inj heq).symm⟩
  · rintro ⟨v, written, hread, hwrite, rfl⟩
    exact ⟨v, hread, written, hwrite, rfl⟩

/-- A single-bit shift works on the value of its destination. -/
theorem effect_singleShift_eq_ok_iff (hm : i.mnemonic.shift? = some op)
    (ho : i.operands = [dst, .immediate 1]) (hw : dst.width? = some w) :
    i.effect memory state = .ok e ↔
      ∃ v written, dst.read memory state w = .ok v ∧
        dst.write memory state w (op w v 1).value = .ok written ∧
        e = written.mapState fun s => (s.withFlags (op w v 1).flags).advance := by
  have hone : Alu.shiftCount w 1 = 1 := by cases w <;> rfl
  have hcount : (Operand.immediate 1).read memory state .byte = .ok 1 := rfl
  have hne : Alu.shiftCount w 1 ≠ 0 := by
    rw [hone]
    decide
  rw [effect_shift_eq_ok_iff hm ho hw hcount hne, hone]

/-- What a number of single-bit shifts leave is what one shift by the number writes: in memory, in
the registers except for `rip`, and in the flags. -/
theorem exists_times_singleShift (hm : i.mnemonic.shift? = some op)
    (ho : i.operands = [dst, .immediate 1]) (hw : dst.width? = some w)
    (hrip : ¬dst.DependsOn .rip) (hread : dst.read memory state w = .ok v)
    (hwrite : dst.write memory state w (op w v 1).value = .ok e) (hlt : n + 1 < 64) :
    ∃ e' state', dst.write memory state w (op w v (UInt64.ofNat (n + 1))).value = .ok e' ∧
      i.times (n + 1) memory state = .ok (e'.commit memory, state') ∧
      state'.AgreesOffRip e'.state ∧ state'.flags = (op w v (UInt64.ofNat (n + 1))).flags := by
  have hwidth : dst.width?.getD w = w := by rw [hw]; rfl
  have hv := Operand.toNat_lt_of_read hread
  induction n with
  | zero =>
    have heffect := (effect_singleShift_eq_ok_iff hm ho hw).2 ⟨v, e, hread, hwrite, rfl⟩
    exact ⟨e, (e.state.withFlags (op w v 1).flags).advance, hwrite, times_succ rfl heffect,
      State.agreesOffRip_advance _, rfl⟩
  | succ n ih =>
    obtain ⟨e', state', hwrite', htimes, hagrees, -⟩ := ih (Nat.lt_of_succ_lt hlt)
    -- The destination reads as the value so far, which is a number of the width.
    have hvalue : dst.read (e'.commit memory) state' w =
        .ok (op w v (UInt64.ofNat (n + 1))).value := by
      have hlt' := (Alu.shifts_ofNat hm hv (Nat.succ_pos n) (Nat.lt_of_succ_lt hlt)).value_lt hv
      rw [Operand.read_congr hrip hagrees, Operand.read_of_write hwidth hwrite',
        Width.truncate_of_lt hlt']
    have hsucc := Alu.shift_succ hm hv (Nat.succ_pos n) hlt
    obtain ⟨e₁, e₂, hwrite₁, hwrite₂, hcommit, hstate⟩ :=
      Operand.write_of_write hrip hwrite' hagrees (op w v (UInt64.ofNat (n + 1 + 1))).value
    have heffect := (effect_singleShift_eq_ok_iff hm ho hw).2 ⟨_, e₂, hvalue, hsucc ▸ hwrite₂, rfl⟩
    rw [← hsucc] at heffect
    refine ⟨e₁, (e₂.state.withFlags (op w v (UInt64.ofNat (n + 1 + 1))).flags).advance, hwrite₁,
      ?_, ?_, rfl⟩
    · rw [times_succ htimes heffect, ← hcommit]
      rfl
    · exact (State.agreesOffRip_advance _).trans hstate

/-- A single-bit shift takes the value of its destination, stores the result there and leaves the
flags of `Mnemonic.ShiftsOnce`. -/
theorem exists_shiftsOnce_of_effect (hm : i.mnemonic.shift? = some op)
    (ho : i.operands = [dst, .immediate 1]) (hw : dst.width? = some w)
    (hrip : ¬dst.DependsOn .rip) (h : i.effect memory state = .ok e) :
    ∃ v r written, dst.read memory state w = .ok v ∧ i.mnemonic.ShiftsOnce w v.toNat r ∧
      dst.write memory state w r.value = .ok written ∧
      e = written.mapState (fun s => (s.withFlags r.flags).advance) ∧
      dst.read (e.commit memory) e.state w = .ok r.value := by
  have hwidth : dst.width?.getD w = w := by rw [hw]; rfl
  obtain ⟨v, written, hread, hwrite, rfl⟩ := (effect_singleShift_eq_ok_iff hm ho hw).1 h
  have hv := Operand.toNat_lt_of_read hread
  have honce := Alu.shiftsOnce_of_shift? hm hv
  have hback := Operand.read_of_write_advance hwidth hrip hwrite (op w v 1).flags
  rw [Width.truncate_of_lt honce.value_lt] at hback
  exact ⟨v, op w v 1, written, hread, honce, hwrite, rfl, hback⟩

/-- A shift writes to the same place whatever its count is, so the count has no say in whether it
succeeds. -/
theorem exists_effect_shift_iff (hm : i.mnemonic.shift? = some op)
    (hj : j.mnemonic.shift? = some op) (hi : i.operands = [dst, src])
    (hone : j.operands = [dst, .immediate 1]) (hw : dst.width? = some w)
    (hcount : src.read memory state .byte = .ok count) (hne : Alu.shiftCount w count ≠ 0) :
    (∃ e, i.effect memory state = .ok e) ↔ ∃ e, j.effect memory state = .ok e := by
  constructor
  · rintro ⟨e, h⟩
    obtain ⟨v, written, hread, hwrite, -⟩ := (effect_shift_eq_ok_iff hm hi hw hcount hne).1 h
    obtain ⟨written', hwrite'⟩ := Operand.exists_write hwrite (op w v 1).value
    exact ⟨_, (effect_singleShift_eq_ok_iff hj hone hw).2 ⟨v, written', hread, hwrite', rfl⟩⟩
  · rintro ⟨e, h⟩
    obtain ⟨v, written, hread, hwrite, -⟩ := (effect_singleShift_eq_ok_iff hj hone hw).1 h
    obtain ⟨written', hwrite'⟩ :=
      Operand.exists_write hwrite (op w v (Alu.shiftCount w count)).value
    exact ⟨_, (effect_shift_eq_ok_iff hm hi hw hcount hne).2 ⟨v, written', hread, hwrite', rfl⟩⟩

/-- A shift that succeeds has the effect of as many single-bit shifts as its count says. -/
theorem exists_times_of_effect_shift (hm : i.mnemonic.shift? = some op)
    (hj : j.mnemonic.shift? = some op) (hi : i.operands = [dst, src])
    (hone : j.operands = [dst, .immediate 1]) (hw : dst.width? = some w)
    (hrip : ¬dst.DependsOn .rip) (hcount : src.read memory state .byte = .ok count)
    (hne : Alu.shiftCount w count ≠ 0) (h : i.effect memory state = .ok e) :
    ∃ state', j.times (Alu.shiftCount w count).toNat memory state =
        .ok (e.commit memory, state') ∧
      e.state.AgreesOffRip state' ∧ e.state.flags = state'.flags := by
  obtain ⟨v, written, hread, hwrite, rfl⟩ := (effect_shift_eq_ok_iff hm hi hw hcount hne).1 h
  obtain ⟨first, hfirst⟩ := Operand.exists_write hwrite (op w v 1).value
  obtain ⟨n, hn⟩ : ∃ n, (Alu.shiftCount w count).toNat = n + 1 :=
    Nat.exists_eq_succ_of_ne_zero fun hzero => hne (UInt64.toNat_inj.1 hzero)
  have hlt : n + 1 < 64 := by
    rw [← hn, Alu.toNat_shiftCount]
    split <;> omega
  have hword : UInt64.ofNat (n + 1) = Alu.shiftCount w count := by
    rw [← hn, UInt64.ofNat_toNat]
  obtain ⟨e', state', hwrite', htimes, hagrees, hflags⟩ :=
    exists_times_singleShift hj hone hw hrip hread hfirst hlt
  rw [hword] at hwrite' hflags
  obtain rfl : written = e' := Except.ok.inj (hwrite.symm.trans hwrite')
  rw [hn]
  exact ⟨state', htimes, (State.agreesOffRip_advance _).trans hagrees.symm, hflags.symm⟩

end Instruction

/-- A shift by a count is that many single-bit shifts. The instruction `i` shifts `dst` by the low
byte of `src`, of which six bits count for a qword and five otherwise, and `j` shifts `dst` by one.
A count of zero only moves on. Otherwise `i` succeeds if and only if `j` does. Then `j` can be
executed as many times as the count says, and this ends with the same memory, the same registers
other than `rip` and the same flags. A `j` that succeeds shifts by one bit: `Mnemonic.ShiftsOnce`
gives the value that it stores and the flags. -/
theorem shift_is_repeated_single_shift {i j : Instruction} {memory : Memory} {state : State}
    {dst src : Operand} {w : Width} {count : UInt64} {c : Nat}
    (hm : i.mnemonic ∈ [.shl, .shr]) (hj : j.mnemonic = i.mnemonic)
    (hi : i.operands = [dst, src]) (hone : j.operands = [dst, .immediate 1])
    (hw : dst.width? = some w) (hrip : ¬dst.DependsOn .rip)
    (hcount : src.read memory state .byte = .ok count)
    (hc : c = count.toNat % if w = .qword then 64 else 32) :
    (c = 0 → i.effect memory state = .ok { state := state.advance }) ∧
      (c ≠ 0 →
        ((∃ e, i.effect memory state = .ok e) ↔ ∃ e, j.effect memory state = .ok e) ∧
        ∀ e, i.effect memory state = .ok e →
          ∃ memory' state', j.times c memory state = .ok (memory', state') ∧
            e.commit memory = memory' ∧ e.state.AgreesOffRip state' ∧
            e.state.flags = state'.flags) ∧
      ∀ e, j.effect memory state = .ok e →
        ∃ v r written, dst.read memory state w = .ok v ∧ j.mnemonic.ShiftsOnce w v.toNat r ∧
          dst.write memory state w r.value = .ok written ∧
          e = written.mapState (fun s => (s.withFlags r.flags).advance) ∧
          dst.read (e.commit memory) e.state w = .ok r.value := by
  obtain ⟨op, hop⟩ : ∃ op, i.mnemonic.shift? = some op := by
    rcases List.mem_pair.1 hm with h | h <;> rw [h] <;> exact ⟨_, rfl⟩
  have hopj : j.mnemonic.shift? = some op := by rw [hj, hop]
  obtain rfl : (Alu.shiftCount w count).toNat = c := by rw [hc, Alu.toNat_shiftCount]
  have hzero : (Alu.shiftCount w count).toNat = 0 ↔ Alu.shiftCount w count = 0 := by
    rw [← UInt64.toNat_inj]
    rfl
  refine ⟨fun h => ?_, fun hne => ⟨?_, fun e h => ?_⟩, fun e h => ?_⟩
  · exact Instruction.effect_shiftByZero hop hi hw hcount (hzero.1 h)
  · exact Instruction.exists_effect_shift_iff hop hopj hi hone hw hcount (mt hzero.2 hne)
  · obtain ⟨state', htimes, hagrees, hflags⟩ :=
      Instruction.exists_times_of_effect_shift hop hopj hi hone hw hrip hcount (mt hzero.2 hne) h
    exact ⟨_, state', htimes, rfl, hagrees, hflags⟩
  · exact Instruction.exists_shiftsOnce_of_effect hopj hone hw hrip h

/-- The instruction `shr cl, cl`. -/
def shiftByItself : Instruction :=
  ⟨.shr, [.register ⟨.rcx, .byte⟩, .register ⟨.rcx, .byte⟩], 1⟩

/-- The instruction `shr cl, 1`. -/
def shiftByOne : Instruction := ⟨.shr, [.register ⟨.rcx, .byte⟩, .immediate 1], 1⟩

/-- A byte is shifted by its whole width, which it holds itself. The last of the eight single-bit
shifts moves out its top bit. -/
theorem shiftByItself_is_repeated :
    ∃ e memory state,
      shiftByItself.effect (Memory.zeroed 0) (({} : State).set .rcx 0x1288) = .ok e ∧
      shiftByOne.times 8 (Memory.zeroed 0) (({} : State).set .rcx 0x1288) = .ok (memory, state) ∧
      e.state.rip = 1 ∧ state.rip = 8 ∧ state.get .rcx = 0x1200 ∧ state.flags.carry = true := by
  have hcount : (Operand.register ⟨.rcx, .byte⟩).read (Memory.zeroed 0)
      (({} : State).set .rcx 0x1288) .byte = .ok 0x88 := rfl
  obtain ⟨-, hrepeated, -⟩ :=
    shift_is_repeated_single_shift (i := shiftByItself) (j := shiftByOne) (c := 8) (by decide) rfl
      rfl rfl rfl (by decide) hcount rfl
  obtain ⟨-, htimes⟩ := hrepeated (by decide)
  obtain ⟨memory, state, htimes, -, hagrees, hflags⟩ := htimes _ rfl
  refine ⟨_, memory, state, rfl, htimes, rfl, ?_, ?_, ?_⟩
  · cases htimes
    rfl
  · exact (hagrees .rcx (by decide)).symm
  · rw [← hflags]
    rfl

end X64
