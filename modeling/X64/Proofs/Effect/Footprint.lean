import X64.Proofs.Effect.Rules
import X64.Proofs.Memory

/-!
# Footprints

What an instruction can change is known from its text and from the registers before it. This module
gives the footprint of an instruction in three parts, and `effects_stay_in_footprint` says that
nothing outside of it changes.

* Memory. `Performs.store_cases` says which word an instruction stores. It is a stack slot, or it
  goes to the destination, whose address is computed from `Instruction.addressing`.
  `Memory.getElem?_store_of_not_covers` says that a store changes no other bytes.
* Registers. `Performs.get_eq` is about the registers outside of `Instruction.MayChange`.
* Flags. `Performs.flags_eq` is about the instructions that leave them alone.

The stack never wraps around. The bounds check of a push or a pop refuses every access at the end of
the address space (`toNat_rsp_sub_slotSize`, `toNat_rsp_add_slotSize`).
-/

namespace X64

/-! ## Bytes -/

/-- The byte at index `k` belongs to the word. -/
def Store.Covers (s : Store) (k : Nat) : Prop :=
  s.address.toNat ≤ k ∧ k < s.address.toNat + s.width.bytes

namespace Memory

variable {memory : Memory}

theorem getElem?_store_of_not_covers {s : Store} {k : Nat} (h : ¬s.Covers k) :
    (memory.store s.address (bytesOfWord s.width.bytes s.value)).bytes[k]? = memory.bytes[k]? := by
  rw [Store.Covers] at h
  rw [store, getElem?_put, length_bytesOfWord, if_neg (by omega)]

end Memory

/-! ## The stack does not wrap around -/

section

variable {memory : Memory} {rsp : UInt64}

theorem toNat_rsp_sub_slotSize (hsize : memory.size < UInt64.size)
    (hroom : memory.InBounds (rsp - slotSize) Width.qword.bytes) :
    (rsp - slotSize).toNat + 8 = rsp.toNat := by
  have hlt := rsp.toNat_lt
  have hslot : slotSize.toNat = 8 := rfl
  have hbytes : Width.qword.bytes = 8 := rfl
  rw [Memory.InBounds, UInt64.toNat_sub] at hroom
  rw [UInt64.toNat_sub]
  unfold UInt64.size at hsize
  omega

theorem toNat_rsp_add_slotSize (hsize : memory.size < UInt64.size)
    (htop : memory.InBounds rsp Width.qword.bytes) :
    (rsp + slotSize).toNat = rsp.toNat + 8 := by
  have hslot : slotSize.toNat = 8 := rfl
  have hbytes : Width.qword.bytes = 8 := rfl
  rw [Memory.InBounds] at htop
  rw [UInt64.toNat_add]
  unfold UInt64.size at hsize
  omega

end

/-! ## The footprint of an instruction -/

/-- Whether the instruction uses the stack, so that `rsp` moves. -/
def Mnemonic.movesStack : Mnemonic → Bool
  | .push | .pop | .call | .ret => true
  | _ => false

theorem Mnemonic.movesStack_of_operation? {m : Mnemonic} {op : Alu.Operation}
    (h : m.operation? = some op) : m.movesStack = false := by
  cases m <;> cases h <;> rfl

theorem Mnemonic.movesStack_of_shift? {m : Mnemonic} {op : Alu.Operation}
    (h : m.shift? = some op) : m.movesStack = false := by
  cases m <;> cases h <;> rfl

namespace Instruction

variable (i : Instruction)

/-- The width at which the result goes to the destination. A pop takes that of its only operand, or
of a slot. A shift takes that of its first operand, and otherwise both operands have a say. -/
def resultWidth? : Option Width :=
  match i.operands with
  | [dst] => some (dst.width?.getD .qword)
  | [dst, src] =>
    if i.mnemonic.shift?.isSome then dst.width? else (i.commonWidth dst src).toOption
  | _ => none

/-- The registers from which the address of the destination is computed. A pop moves `rsp` before it
writes. -/
def addressing (state : State) : State :=
  if i.mnemonic = .pop then state.set .rsp (state.rsp + slotSize) else state

/-- The byte at index `k` is part of the slot that is pushed, or of a destination in memory. -/
def MayStoreAt (state : State) (k : Nat) : Prop :=
  (i.mnemonic = .push ∨ i.mnemonic = .call) ∧ state.rsp.toNat ≤ k + 8 ∧ k < state.rsp.toNat ∨
    ∃ m w, i.destination? = some (.memory m) ∧ i.resultWidth? = some w ∧
      (m.address (i.addressing state)).toNat ≤ k ∧
      k < (m.address (i.addressing state)).toNat + w.bytes

/-- The register is `rip`, or that of the destination, or it is `rsp` and the stack moves. -/
def MayChange (r : Register) : Prop :=
  r = .rip ∨ (∃ w, i.destination? = some (.register ⟨r, w⟩)) ∨
    r = .rsp ∧ i.mnemonic.movesStack = true

/-- The instruction is an operation or a comparison, or a shift by a count that is not zero. -/
def MaySetFlags (memory : Memory) (state : State) : Prop :=
  match i.mnemonic with
  | .add | .sub | .cmp | .and | .or | .xor => True
  | .shl | .shr => ∃ dst src w count, i.operands = [dst, src] ∧ dst.width? = some w ∧
      src.read memory state .byte = .ok count ∧ Alu.shiftCount w count ≠ 0
  | _ => False

end Instruction

namespace Instruction

variable {i : Instruction} {memory : Memory} {state : State} {e : Effect}

theorem resultWidth?_of_pop {dst : Operand} (ho : i.operands = [dst]) :
    i.resultWidth? = some (dst.width?.getD .qword) := by
  rw [resultWidth?, ho]

theorem resultWidth?_of_shift {op : Alu.Operation} {dst src : Operand} {w : Width}
    (hm : i.mnemonic.shift? = some op) (ho : i.operands = [dst, src]) (hw : dst.width? = some w) :
    i.resultWidth? = some w := by
  simp only [resultWidth?, ho, hm, Option.isSome_some, if_true, hw]

theorem resultWidth?_of_commonWidth {dst src : Operand} {w : Width}
    (hm : i.mnemonic.shift? = none) (ho : i.operands = [dst, src])
    (hw : i.commonWidth dst src = .ok w) : i.resultWidth? = some w := by
  simp only [resultWidth?, ho, hm, Option.isSome_none, Bool.false_eq_true, if_false, hw]
  rfl

/-! ### Memory -/

/-- A write to an operand stores nothing but the value, at the address of the operand. -/
theorem store_of_write {o : Operand} {w : Width} {value : UInt64} {s : Store}
    (h : o.write memory state w value = .ok e) (hs : e.store = some s) :
    ∃ m, o = .memory m ∧ memory.InBounds s.address s.width.bytes ∧ w = s.width ∧
      s.address = m.address state := by
  rcases Operand.write_eq_ok_iff.1 h with ⟨v, -, rfl⟩ | ⟨m, rfl, hin, rfl⟩
  · cases hs
  · cases hs
    exact ⟨m, rfl, hin, rfl, rfl⟩

theorem store_of_write_destination {dst : Operand} {rest : List Operand} {w : Width}
    {value : UInt64} {s : Store} (hm : i.mnemonic.hasDestination = true) (hpop : i.mnemonic ≠ .pop)
    (ho : i.operands = dst :: rest) (hw : i.resultWidth? = some w)
    (hwrite : dst.write memory state w value = .ok e) (hs : e.store = some s) :
    memory.InBounds s.address s.width.bytes ∧
      ∃ m, i.destination? = some (.memory m) ∧ i.resultWidth? = some s.width ∧
        s.address = m.address (i.addressing state) := by
  obtain ⟨m, rfl, hin, rfl, haddress⟩ := store_of_write hwrite hs
  refine ⟨hin, m, destination?_eq hm ho, hw, ?_⟩
  rw [addressing, if_neg hpop, haddress]

/-- What an instruction stores: a stack slot, or its result. -/
theorem Performs.store_cases (h : i.Performs memory state e) {s : Store} (hs : e.store = some s) :
    memory.InBounds s.address s.width.bytes ∧
      ((i.mnemonic = .push ∨ i.mnemonic = .call) ∧ s.address = state.rsp - slotSize ∧
          s.width = .qword ∨
        ∃ m, i.destination? = some (.memory m) ∧ i.resultWidth? = some s.width ∧
          s.address = m.address (i.addressing state)) := by
  cases h with
  | mov hm ho hmemory hw hread hwrite =>
    have hwidth := resultWidth?_of_commonWidth (by rw [hm]; rfl) ho hw
    have hstored :=
      store_of_write_destination (by rw [hm]; rfl) (by simp [hm]) ho hwidth hwrite hs
    exact hstored.imp_right Or.inr
  | binary hm ho hw ha hb hwrite =>
    have hwidth := resultWidth?_of_commonWidth (Mnemonic.shift?_of_operation? hm) ho hw
    exact (store_of_write_destination (Mnemonic.hasDestination_of_operation? hm)
      (Mnemonic.ne_pop_of_operation? hm) ho hwidth hwrite hs).imp_right Or.inr
  | shift hm ho hw hcount hzero hread hwrite =>
    have hwidth := resultWidth?_of_shift hm ho hw
    exact (store_of_write_destination (Mnemonic.hasDestination_of_shift? hm)
      (Mnemonic.ne_pop_of_shift? hm) ho hwidth hwrite hs).imp_right Or.inr
  | pop hm ho htop hwrite =>
    obtain ⟨m, rfl, hin, hw, haddress⟩ := store_of_write hwrite hs
    refine ⟨hin, Or.inr ⟨m, destination?_eq (by rw [hm]; rfl) ho, ?_, ?_⟩⟩
    · rw [resultWidth?_of_pop ho, hw]
    · rw [addressing, if_pos hm, haddress]
  | push hm ho hvalue hroom =>
    cases hs
    exact ⟨hroom, Or.inl ⟨Or.inl hm, rfl, rfl⟩⟩
  | call hm ho hroom =>
    cases hs
    exact ⟨hroom, Or.inl ⟨Or.inr hm, rfl, rfl⟩⟩
  | nop hm => cases hs
  | cmp hm ho hw ha hb => cases hs
  | shiftByZero hm ho hw hcount hzero => cases hs
  | ret hm ho htop => cases hs
  | jmp hm ho => cases hs
  | jumpIf hm ho => cases hs

/-- A byte outside of the footprint stays as it is. -/
theorem Performs.getElem?_commit (h : i.Performs memory state e)
    (hsize : memory.size < UInt64.size) {k : Nat} (hk : ¬i.MayStoreAt state k) :
    (e.commit memory).bytes[k]? = memory.bytes[k]? := by
  unfold Effect.commit
  split
  · next s hs =>
    refine Memory.getElem?_store_of_not_covers fun hcovers => hk ?_
    obtain ⟨hin, ⟨hm, haddress, hw⟩ | ⟨m, hdst, hw, haddress⟩⟩ := h.store_cases hs
    · rw [Store.Covers, haddress, hw] at hcovers
      rw [haddress, hw] at hin
      have hrsp := toNat_rsp_sub_slotSize hsize hin
      have hbytes : Width.qword.bytes = 8 := rfl
      exact Or.inl ⟨hm, by omega, by omega⟩
    · rw [Store.Covers, haddress] at hcovers
      exact Or.inr ⟨m, s.width, hdst, hw, hcovers⟩
  · rfl

/-! ### Registers -/

theorem get_of_write {o : Operand} {w : Width} {value : UInt64}
    (h : o.write memory state w value = .ok e) {r : Register}
    (hr : ∀ w', o ≠ .register ⟨r, w'⟩) : e.state.get r = state.get r := by
  rcases Operand.write_eq_ok_iff.1 h with ⟨v, rfl, rfl⟩ | ⟨m, rfl, hin, rfl⟩
  · have hne : r ≠ v.register := fun heq => hr v.width (heq ▸ rfl)
    exact State.get_set_of_ne state hne _
  · rfl

theorem flags_of_write {o : Operand} {w : Width} {value : UInt64}
    (h : o.write memory state w value = .ok e) : e.state.flags = state.flags := by
  rcases Operand.write_eq_ok_iff.1 h with ⟨v, rfl, rfl⟩ | ⟨m, rfl, hin, rfl⟩ <;> rfl

/-- The result of an instruction changes no other register than that of the destination. -/
theorem get_of_write_destination {dst : Operand} {rest : List Operand} {w : Width}
    {value : UInt64} (hm : i.mnemonic.hasDestination = true) (ho : i.operands = dst :: rest)
    (hwrite : dst.write memory state w value = .ok e) {r : Register}
    (hr : ∀ w, i.destination? ≠ some (.register ⟨r, w⟩)) : e.state.get r = state.get r := by
  refine get_of_write hwrite fun w' heq => hr w' ?_
  rw [destination?_eq hm ho, heq]

/-- A register outside of the footprint stays as it is. -/
theorem Performs.get_eq (h : i.Performs memory state e) {r : Register} (hr : ¬i.MayChange r) :
    e.state.get r = state.get r := by
  simp only [MayChange, not_or, not_exists, not_and, Bool.not_eq_true] at hr
  obtain ⟨hrip, hdst, hstack⟩ := hr
  have hrsp : i.mnemonic.movesStack = true → r ≠ .rsp := by
    intro hmoves heq
    rw [hstack heq] at hmoves
    cases hmoves
  cases h with
  | nop hm => exact State.get_advance_of_ne _ hrip
  | mov hm ho hmemory hw hread hwrite =>
    refine (State.get_advance_of_ne _ hrip).trans ?_
    exact get_of_write_destination (by rw [hm]; rfl) ho hwrite hdst
  | binary hm ho hw ha hb hwrite =>
    refine (State.get_advance_of_ne _ hrip).trans ?_
    exact get_of_write_destination (Mnemonic.hasDestination_of_operation? hm) ho hwrite hdst
  | cmp hm ho hw ha hb => exact State.get_advance_of_ne _ hrip
  | shiftByZero hm ho hw hcount hzero => exact State.get_advance_of_ne _ hrip
  | shift hm ho hw hcount hzero hread hwrite =>
    refine (State.get_advance_of_ne _ hrip).trans ?_
    exact get_of_write_destination (Mnemonic.hasDestination_of_shift? hm) ho hwrite hdst
  | push hm ho hvalue hroom =>
    refine (State.get_advance_of_ne _ hrip).trans ?_
    exact State.get_set_of_ne _ (hrsp (by rw [hm]; rfl)) _
  | pop hm ho htop hwrite =>
    refine (State.get_advance_of_ne _ hrip).trans ?_
    rw [get_of_write_destination (by rw [hm]; rfl) ho hwrite hdst]
    exact State.get_set_of_ne _ (hrsp (by rw [hm]; rfl)) _
  | call hm ho hroom =>
    refine (State.get_jump_of_ne _ hrip _).trans ?_
    exact State.get_set_of_ne _ (hrsp (by rw [hm]; rfl)) _
  | ret hm ho htop =>
    refine (State.get_set_of_ne _ hrip _).trans ?_
    exact State.get_set_of_ne _ (hrsp (by rw [hm]; rfl)) _
  | jmp hm ho => exact State.get_jump_of_ne _ hrip _
  | jumpIf hm ho =>
    simp only
    split
    · exact State.get_jump_of_ne _ hrip _
    · exact State.get_advance_of_ne _ hrip

/-! ### Flags -/

theorem maySetFlags_of_operation? {op : Alu.Operation} (h : i.mnemonic.operation? = some op)
    (memory : Memory) (state : State) : i.MaySetFlags memory state := by
  unfold MaySetFlags
  cases hm : i.mnemonic with
  | add | sub | and | or | xor => trivial
  | _ =>
    rw [hm] at h
    cases h

theorem maySetFlags_of_shift? {op : Alu.Operation} {dst src : Operand} {w : Width} {count : UInt64}
    (h : i.mnemonic.shift? = some op) (ho : i.operands = [dst, src]) (hw : dst.width? = some w)
    (hcount : src.read memory state .byte = .ok count) (hzero : Alu.shiftCount w count ≠ 0) :
    i.MaySetFlags memory state := by
  unfold MaySetFlags
  cases hm : i.mnemonic with
  | shl | shr => exact ⟨dst, src, w, count, ho, hw, hcount, hzero⟩
  | _ =>
    rw [hm] at h
    cases h

/-- An instruction that does not compute flags leaves them as they are. -/
theorem Performs.flags_eq (h : i.Performs memory state e) (hflags : ¬i.MaySetFlags memory state) :
    e.state.flags = state.flags := by
  cases h with
  | mov hm ho hmemory hw hread hwrite =>
    have hkept := flags_of_write hwrite
    exact hkept
  | pop hm ho htop hwrite =>
    have hkept := flags_of_write hwrite
    exact hkept
  | binary hm ho hw ha hb hwrite => exact absurd (maySetFlags_of_operation? hm _ _) hflags
  | cmp hm ho hw ha hb => exact absurd (by rw [MaySetFlags, hm]; trivial) hflags
  | shift hm ho hw hcount hzero hread hwrite =>
    exact absurd (maySetFlags_of_shift? hm ho hw hcount hzero) hflags
  | jumpIf hm ho =>
    simp only
    split <;> rfl
  | nop hm => rfl
  | shiftByZero hm ho hw hcount hzero => rfl
  | push hm ho hvalue hroom => rfl
  | call hm ho hroom => rfl
  | ret hm ho htop => rfl
  | jmp hm ho => rfl

end Instruction

/-- An instruction touches only its footprint. Memory keeps its size. A byte of memory may change
only if it lies in the slot that a `push` or a `call` makes below `rsp`, or in the destination of
the result; a register only if it is `rip`, or that of the destination, or if it is `rsp` and the
stack moves; and the flags only after an operation, a comparison, or a shift by a count that is not
zero. -/
theorem effects_stay_in_footprint {i : Instruction} {memory : Memory} {state : State} {e : Effect}
    (hsize : memory.size < UInt64.size) (h : i.effect memory state = .ok e) :
    (e.commit memory).size = memory.size ∧
      (∀ k, (e.commit memory).bytes[k]? ≠ memory.bytes[k]? → i.MayStoreAt state k) ∧
      (∀ r, e.state.get r ≠ state.get r → i.MayChange r) ∧
      (e.state.flags ≠ state.flags → i.MaySetFlags memory state) := by
  have hrule := Instruction.performs_of_effect h
  refine ⟨Effect.size_commit e memory, fun k hk => ?_, fun r hr => ?_, fun hflags => ?_⟩
  · exact Classical.byContradiction fun hout => hk (hrule.getElem?_commit hsize hout)
  · exact Classical.byContradiction fun hout => hr (hrule.get_eq hout)
  · exact Classical.byContradiction fun hout => hflags (hrule.flags_eq hout)

/-- A pop into the double word that is on top of the stack after the pop. -/
def popBehind : Instruction := ⟨.pop, [.memory ⟨some .dword, some .rsp, 0⟩], 1⟩

/-- A slot with two different halves, and a slot of zeros behind it. -/
def twoSlots : Memory := ⟨#[1, 1, 1, 1, 2, 2, 2, 2, 0, 0, 0, 0, 0, 0, 0, 0]⟩

/-- The effect of the pop at address zero. -/
def popBehindEffect : Effect where
  state := (({} : State).set .rsp 8).advance
  store := some ⟨8, .dword, 0x0202020201010101⟩

/-- The pop reads a whole slot and stores half of it, at the address that `rsp` has afterwards. -/
theorem popBehind_stays_in_footprint :
    popBehind.effect twoSlots {} = .ok popBehindEffect ∧
      (popBehindEffect.commit twoSlots).bytes =
        #[1, 1, 1, 1, 2, 2, 2, 2, 1, 1, 1, 1, 0, 0, 0, 0] ∧
      (popBehindEffect.commit twoSlots).size = twoSlots.size ∧
      popBehind.MayStoreAt {} 8 ∧ popBehind.MayStoreAt {} 11 ∧ popBehind.MayChange .rsp := by
  have heffect : popBehind.effect twoSlots {} = .ok popBehindEffect := by decide +kernel
  obtain ⟨hsize, hbytes, hregisters, -⟩ := effects_stay_in_footprint (by decide) heffect
  refine ⟨heffect, by decide +kernel, hsize, hbytes 8 ?_, hbytes 11 ?_, hregisters .rsp ?_⟩
  · decide +kernel
  · decide +kernel
  · decide +kernel

end X64
