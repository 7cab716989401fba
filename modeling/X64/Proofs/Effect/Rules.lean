import X64.Proofs.Effect

/-!
# The rules of the instruction set

`Instruction.Performs` gives the instructions as rules: one rule for each kind of instruction, with
what it takes from its operands and from memory as premises, and with its effect as conclusion. An
instruction has an effect exactly when one of the rules gives it (`effect_eq_ok_iff`). Facts about
all instructions are proved by cases on the rules, so that no proof opens a handler again.

The places that an instruction can change are functions of its syntax. The result of most
instructions goes to the first operand (`destination?`), and `Operand.write_eq_ok_iff` says what it
means to write there.
-/

namespace X64

/-! ## Kinds of mnemonics -/

namespace Mnemonic

/-- The operation of the instructions that compute a value and flags from two operands. -/
def operation? : Mnemonic → Option Alu.Operation
  | .add => some Alu.add
  | .sub => some Alu.sub
  | .and => some Alu.and
  | .or => some Alu.or
  | .xor => some Alu.xor
  | _ => none

/-- The operation of a shift. -/
def shift? : Mnemonic → Option Alu.Operation
  | .shl => some Alu.shiftLeft
  | .shr => some Alu.shiftRight
  | _ => none

/-- Whether the result goes to the first operand. -/
def hasDestination : Mnemonic → Bool
  | .pop | .mov | .add | .sub | .and | .or | .xor | .shl | .shr => true
  | _ => false

variable {m : Mnemonic} {op : Alu.Operation}

theorem handler?_of_operation? (h : m.operation? = some op) :
    m.handler? = some (Handler.binary op) := by
  cases m <;> cases h <;> rfl

theorem handler?_of_shift? (h : m.shift? = some op) : m.handler? = some (Handler.shift op) := by
  cases m <;> cases h <;> rfl

theorem hasDestination_of_operation? (h : m.operation? = some op) : m.hasDestination = true := by
  cases m <;> cases h <;> rfl

theorem hasDestination_of_shift? (h : m.shift? = some op) : m.hasDestination = true := by
  cases m <;> cases h <;> rfl

theorem shift?_of_operation? (h : m.operation? = some op) : m.shift? = none := by
  cases m <;> cases h <;> rfl

theorem ne_pop_of_operation? (h : m.operation? = some op) : m ≠ .pop := by
  rintro rfl
  cases h

theorem ne_pop_of_shift? (h : m.shift? = some op) : m ≠ .pop := by
  rintro rfl
  cases h

end Mnemonic

/-- The value that a push takes from its operand. -/
def Operand.slotValue (o : Operand) (memory : Memory) (state : State) :
    Except ExecutionError UInt64 :=
  match o with
  | .immediate value => .ok value.toUInt64
  | _ => o.read memory state (o.width?.getD .qword)

namespace Instruction

/-- The operand that the result goes to. -/
def destination? (i : Instruction) : Option Operand :=
  if i.mnemonic.hasDestination then i.operands.head? else none

theorem destination?_eq {i : Instruction} {dst : Operand} {rest : List Operand}
    (hm : i.mnemonic.hasDestination = true) (ho : i.operands = dst :: rest) :
    i.destination? = some dst := by
  rw [destination?, if_pos hm, ho]
  rfl

/-! ## The rules -/

/-- The rules by which an instruction has an effect on memory and registers. -/
inductive Performs (i : Instruction) (memory : Memory) (state : State) : Effect → Prop
  | nop (hm : i.mnemonic = .nop) : Performs i memory state { state := state.advance }
  | mov {dst src : Operand} {w : Width} {value : UInt64} {e : Effect} (hm : i.mnemonic = .mov)
      (ho : i.operands = [dst, src]) (hmemory : (dst.isMemory && src.isMemory) = false)
      (hw : i.commonWidth dst src = .ok w) (hread : src.read memory state w = .ok value)
      (hwrite : dst.write memory state w value = .ok e) :
      Performs i memory state (e.mapState State.advance)
  | binary {op : Alu.Operation} {dst src : Operand} {w : Width} {a b : UInt64} {e : Effect}
      (hm : i.mnemonic.operation? = some op) (ho : i.operands = [dst, src])
      (hw : i.commonWidth dst src = .ok w) (ha : dst.read memory state w = .ok a)
      (hb : src.read memory state w = .ok b)
      (hwrite : dst.write memory state w (op w a b).value = .ok e) :
      Performs i memory state (e.mapState fun s => (s.withFlags (op w a b).flags).advance)
  | cmp {dst src : Operand} {w : Width} {a b : UInt64} (hm : i.mnemonic = .cmp)
      (ho : i.operands = [dst, src]) (hw : i.commonWidth dst src = .ok w)
      (ha : dst.read memory state w = .ok a) (hb : src.read memory state w = .ok b) :
      Performs i memory state { state := (state.withFlags (Alu.sub w a b).flags).advance }
  | shiftByZero {op : Alu.Operation} {dst src : Operand} {w : Width} {count : UInt64}
      (hm : i.mnemonic.shift? = some op) (ho : i.operands = [dst, src])
      (hw : dst.width? = some w) (hcount : src.read memory state .byte = .ok count)
      (hzero : Alu.shiftCount w count = 0) : Performs i memory state { state := state.advance }
  | shift {op : Alu.Operation} {dst src : Operand} {w : Width} {count value : UInt64} {e : Effect}
      (hm : i.mnemonic.shift? = some op) (ho : i.operands = [dst, src])
      (hw : dst.width? = some w) (hcount : src.read memory state .byte = .ok count)
      (hzero : Alu.shiftCount w count ≠ 0) (hread : dst.read memory state w = .ok value)
      (hwrite :
        dst.write memory state w (op w value (Alu.shiftCount w count)).value = .ok e) :
      Performs i memory state
        (e.mapState fun s => (s.withFlags (op w value (Alu.shiftCount w count)).flags).advance)
  | push {src : Operand} {value : UInt64} (hm : i.mnemonic = .push) (ho : i.operands = [src])
      (hvalue : src.slotValue memory state = .ok value)
      (hroom : memory.InBounds (state.rsp - slotSize) Width.qword.bytes) :
      Performs i memory state
        { state := (state.set .rsp (state.rsp - slotSize)).advance
          store := some ⟨state.rsp - slotSize, .qword, value⟩ }
  | pop {dst : Operand} {value : UInt64} {e : Effect} (hm : i.mnemonic = .pop)
      (ho : i.operands = [dst]) (htop : memory.read state.rsp .qword = .ok value)
      (hwrite : dst.write memory (state.set .rsp (state.rsp + slotSize))
        (dst.width?.getD .qword) value = .ok e) :
      Performs i memory state (e.mapState State.advance)
  | call {name : String} {target : Nat} (hm : i.mnemonic = .call)
      (ho : i.operands = [.label name target])
      (hroom : memory.InBounds (state.rsp - slotSize) Width.qword.bytes) :
      Performs i memory state
        { state := (state.set .rsp (state.rsp - slotSize)).jump target
          store := some ⟨state.rsp - slotSize, .qword, state.rip + 1⟩ }
  | ret {value : UInt64} (hm : i.mnemonic = .ret) (ho : i.operands = [])
      (htop : memory.read state.rsp .qword = .ok value) :
      Performs i memory state
        { state := (state.set .rsp (state.rsp + slotSize)).set .rip value }
  | jmp {name : String} {target : Nat} (hm : i.mnemonic = .jmp)
      (ho : i.operands = [.label name target]) :
      Performs i memory state { state := state.jump target }
  | jumpIf {c : Condition} {name : String} {target : Nat} (hm : i.mnemonic = .jumpIf c)
      (ho : i.operands = [.label name target]) :
      Performs i memory state
        { state := if c.holds state.flags then state.jump target else state.advance }

/-! ## Operands and the stack -/

variable {i : Instruction} {memory : Memory} {state : State} {e : Effect}

theorem pair_eq_ok_iff {dst src : Operand} :
    i.pair = .ok (dst, src) ↔ i.operands = [dst, src] := by
  refine ⟨fun h => ?_, pair_eq⟩
  unfold pair at h
  split at h
  · next ho =>
    cases h
    exact ho
  · cases h

theorem single_eq_ok_iff {o : Operand} : i.single = .ok o ↔ i.operands = [o] := by
  refine ⟨fun h => ?_, single_eq⟩
  unfold single at h
  split at h
  · next ho =>
    cases h
    exact ho
  · cases h

theorem target_eq_ok_iff {target : Nat} :
    i.target = .ok target ↔ ∃ name, i.operands = [.label name target] := by
  refine ⟨fun h => ?_, fun ⟨_, ho⟩ => target_eq ho⟩
  obtain ⟨o, ho, h⟩ := bind_eq_ok_iff.1 h
  rw [single_eq_ok_iff] at ho
  cases o with
  | label name target =>
    cases h
    exact ⟨name, ho⟩
  | register v => cases h
  | immediate value => cases h
  | memory m => cases h

end Instruction

section

variable {memory : Memory} {state : State} {e : Effect}

theorem storeEffect_eq_ok_iff {s : Store} :
    storeEffect memory state s = .ok e ↔
      memory.InBounds s.address s.width.bytes ∧ e = { state, store := some s } := by
  by_cases h : memory.InBounds s.address s.width.bytes
  · rw [storeEffect_eq h]
    simp [h, eq_comm]
  · rw [storeEffect, Memory.check, if_neg h]
    simp [h]

theorem pushWord_eq_ok_iff {value : UInt64} :
    pushWord memory state value = .ok e ↔
      memory.InBounds (state.rsp - slotSize) Width.qword.bytes ∧
        e =
          { state := state.set .rsp (state.rsp - slotSize)
            store := some ⟨state.rsp - slotSize, .qword, value⟩ } :=
  storeEffect_eq_ok_iff

theorem popWord_eq_ok_iff {value : UInt64} {next : State} :
    popWord memory state = .ok (value, next) ↔
      memory.read state.rsp .qword = .ok value ∧
        next = state.set .rsp (state.rsp + slotSize) := by
  constructor
  · intro h
    obtain ⟨value', hread, heq⟩ := bind_eq_ok_iff.1 h
    cases heq
    exact ⟨mapError_eq_ok_iff.1 hread, rfl⟩
  · rintro ⟨hread, rfl⟩
    exact popWord_eq hread

/-- A register takes the value at once, and a reference stores it if it is in bounds. Nothing else
can be written. -/
theorem Operand.write_eq_ok_iff {o : Operand} {w : Width} {value : UInt64} :
    o.write memory state w value = .ok e ↔
      (∃ v, o = .register v ∧ e = { state := state.write v value }) ∨
        ∃ m, o = .memory m ∧ memory.InBounds (m.address state) w.bytes ∧
          e = { state, store := some ⟨m.address state, w, value⟩ } := by
  cases o with
  | register v => simp [write, eq_comm]
  | memory m => simp [write, storeEffect_eq_ok_iff]
  | immediate x => simp [write]
  | label name target => simp [write]

end

/-! ## Handlers and rules -/

namespace Instruction

variable {i : Instruction} {memory : Memory} {state : State} {e : Effect}

theorem performs_of_shift {op : Alu.Operation} (hm : i.mnemonic.shift? = some op)
    (h : Handler.shift op memory state i = .ok e) : i.Performs memory state e := by
  obtain ⟨⟨dst, src⟩, hpair, h⟩ := bind_eq_ok_iff.1 h
  rw [pair_eq_ok_iff] at hpair
  cases hw : dst.width? with
  | none =>
    simp only [hw] at h
    cases h
  | some w =>
    simp only [hw] at h
    obtain ⟨count, hcount, h⟩ := bind_eq_ok_iff.1 h
    by_cases hzero : Alu.shiftCount w count = 0
    · rw [if_pos hzero] at h
      cases h
      exact .shiftByZero hm hpair hw hcount hzero
    · rw [if_neg hzero] at h
      obtain ⟨value, hread, h⟩ := bind_eq_ok_iff.1 h
      obtain ⟨e', hwrite, heq⟩ := bind_eq_ok_iff.1 h
      cases heq
      exact .shift hm hpair hw hcount hzero hread hwrite

theorem performs_of_push (hm : i.mnemonic = .push) (h : Handler.push memory state i = .ok e) :
    i.Performs memory state e := by
  obtain ⟨src, hsingle, h⟩ := bind_eq_ok_iff.1 h
  rw [single_eq_ok_iff] at hsingle
  have hvalue : ∃ value, src.slotValue memory state = .ok value ∧
      (pushWord memory state value >>= fun e => pure (e.mapState State.advance)) = .ok e := by
    cases src with
    | immediate x => exact ⟨_, rfl, h⟩
    | register v => exact bind_eq_ok_iff.1 h
    | memory m => exact bind_eq_ok_iff.1 h
    | label name target => exact bind_eq_ok_iff.1 h
  obtain ⟨value, hvalue, h⟩ := hvalue
  obtain ⟨e', hpush, heq⟩ := bind_eq_ok_iff.1 h
  obtain ⟨hroom, rfl⟩ := pushWord_eq_ok_iff.1 hpush
  cases heq
  exact .push hm hsingle hvalue hroom

theorem performs_of_pop (hm : i.mnemonic = .pop) (h : Handler.pop memory state i = .ok e) :
    i.Performs memory state e := by
  obtain ⟨dst, hsingle, h⟩ := bind_eq_ok_iff.1 h
  rw [single_eq_ok_iff] at hsingle
  obtain ⟨⟨value, next⟩, hpop, h⟩ := bind_eq_ok_iff.1 h
  obtain ⟨htop, rfl⟩ := popWord_eq_ok_iff.1 hpop
  obtain ⟨e', hwrite, heq⟩ := bind_eq_ok_iff.1 h
  cases heq
  exact .pop hm hsingle htop hwrite

theorem performs_of_call (hm : i.mnemonic = .call) (h : Handler.call memory state i = .ok e) :
    i.Performs memory state e := by
  obtain ⟨target, htarget, h⟩ := bind_eq_ok_iff.1 h
  obtain ⟨name, ho⟩ := target_eq_ok_iff.1 htarget
  obtain ⟨e', hpush, heq⟩ := bind_eq_ok_iff.1 h
  obtain ⟨hroom, rfl⟩ := pushWord_eq_ok_iff.1 hpush
  cases heq
  exact .call hm ho hroom

theorem performs_of_ret (hm : i.mnemonic = .ret) (h : Handler.ret memory state i = .ok e) :
    i.Performs memory state e := by
  unfold Handler.ret at h
  cases hempty : i.operands.isEmpty with
  | false =>
    simp only [hempty] at h
    cases h
  | true =>
    simp only [hempty] at h
    obtain ⟨⟨value, next⟩, hpop, heq⟩ := bind_eq_ok_iff.1 h
    obtain ⟨htop, rfl⟩ := popWord_eq_ok_iff.1 hpop
    cases heq
    exact .ret hm (List.isEmpty_iff.1 hempty) htop

theorem performs_of_jmp (hm : i.mnemonic = .jmp) (h : Handler.jmp memory state i = .ok e) :
    i.Performs memory state e := by
  obtain ⟨target, htarget, heq⟩ := bind_eq_ok_iff.1 h
  obtain ⟨name, ho⟩ := target_eq_ok_iff.1 htarget
  cases heq
  exact .jmp hm ho

theorem performs_of_jumpIf {c : Condition} (hm : i.mnemonic = .jumpIf c)
    (h : Handler.jumpIf memory state i = .ok e) : i.Performs memory state e := by
  obtain ⟨target, htarget, heq⟩ := bind_eq_ok_iff.1 h
  obtain ⟨name, ho⟩ := target_eq_ok_iff.1 htarget
  simp only [hm, Mnemonic.condition?] at heq
  cases heq
  exact .jumpIf hm ho

/-- A handler that starts with a pair of operands succeeds on two operands only. -/
theorem exists_pair_of_bind {f : Operand × Operand → Except ExecutionError Effect}
    (h : (i.pair >>= f) = .ok e) : ∃ dst src, i.operands = [dst, src] := by
  obtain ⟨⟨dst, src⟩, hpair, -⟩ := bind_eq_ok_iff.1 h
  exact ⟨dst, src, pair_eq_ok_iff.1 hpair⟩

theorem performs_of_mov (hm : i.mnemonic = .mov) (h : i.effect memory state = .ok e) :
    i.Performs memory state e := by
  have hmov : Handler.mov memory state i = .ok e := by
    rw [effect, hm] at h
    exact h
  obtain ⟨dst, src, ho⟩ := exists_pair_of_bind hmov
  obtain ⟨hmemory, w, value, e', hw, hread, hwrite, rfl⟩ := (effect_mov_eq_ok_iff hm ho).1 h
  exact .mov hm ho hmemory hw hread hwrite

theorem performs_of_binary {op : Alu.Operation} (hm : i.mnemonic.operation? = some op)
    (h : i.effect memory state = .ok e) : i.Performs memory state e := by
  have hhandler := Mnemonic.handler?_of_operation? hm
  have hbinary : Handler.binary op memory state i = .ok e := by
    rw [effect, hhandler] at h
    exact h
  obtain ⟨dst, src, ho⟩ := exists_pair_of_bind hbinary
  obtain ⟨w, a, b, e', hw, ha, hb, hwrite, rfl⟩ := (effect_binary_eq_ok_iff hhandler ho).1 h
  exact .binary hm ho hw ha hb hwrite

theorem performs_of_cmp (hm : i.mnemonic = .cmp) (h : i.effect memory state = .ok e) :
    i.Performs memory state e := by
  have hcmp : Handler.cmp memory state i = .ok e := by
    rw [effect, hm] at h
    exact h
  obtain ⟨dst, src, ho⟩ := exists_pair_of_bind hcmp
  obtain ⟨w, a, b, hw, ha, hb, rfl⟩ := (effect_cmp_eq_ok_iff hm ho).1 h
  exact .cmp hm ho hw ha hb

/-- An effect is given by one of the rules. -/
theorem performs_of_effect (h : i.effect memory state = .ok e) : i.Performs memory state e := by
  have hhandler := h
  unfold effect at hhandler
  cases hm : i.mnemonic with
  | add | sub | and | or | xor => exact performs_of_binary (by rw [hm]; rfl) h
  | cmp => exact performs_of_cmp hm h
  | push => exact performs_of_push hm (by rwa [hm] at hhandler)
  | pop => exact performs_of_pop hm (by rwa [hm] at hhandler)
  | mov => exact performs_of_mov hm h
  | shl | shr => exact performs_of_shift (by rw [hm]; rfl) (by rwa [hm] at hhandler)
  | jmp => exact performs_of_jmp hm (by rwa [hm] at hhandler)
  | jumpIf c => exact performs_of_jumpIf hm (by rwa [hm] at hhandler)
  | call => exact performs_of_call hm (by rwa [hm] at hhandler)
  | ret => exact performs_of_ret hm (by rwa [hm] at hhandler)
  | nop =>
    rw [hm] at hhandler
    cases hhandler
    exact .nop hm
  | syscall =>
    rw [hm] at hhandler
    cases hhandler

theorem effect_of_performs_push {src : Operand} {value : UInt64} (hm : i.mnemonic = .push)
    (ho : i.operands = [src]) (hvalue : src.slotValue memory state = .ok value)
    (hroom : memory.InBounds (state.rsp - slotSize) Width.qword.bytes) :
    i.effect memory state =
      .ok { state := (state.set .rsp (state.rsp - slotSize)).advance
            store := some ⟨state.rsp - slotSize, .qword, value⟩ } := by
  have hhandler : i.effect memory state =
      (src.slotValue memory state >>= fun value =>
        pushWord memory state value >>= fun e => pure (e.mapState State.advance)) := by
    rw [effect, hm]
    simp only [Mnemonic.handler?, Handler.push, single_eq ho, ok_bind]
    cases src <;> rfl
  rw [hhandler, hvalue, ok_bind, pushWord_eq hroom]
  rfl

/-- What a rule gives is the effect of the instruction. -/
theorem effect_of_performs (h : i.Performs memory state e) : i.effect memory state = .ok e := by
  cases h with
  | nop hm =>
    rw [effect, hm]
    rfl
  | mov hm ho hmemory hw hread hwrite => exact effect_mov hm ho hmemory hw hread hwrite
  | binary hm ho hw ha hb hwrite =>
    exact effect_binary (Mnemonic.handler?_of_operation? hm) ho hw ha hb hwrite
  | cmp hm ho hw ha hb => exact effect_cmp hm ho hw ha hb
  | shiftByZero hm ho hw hcount hzero =>
    rw [effect, Mnemonic.handler?_of_shift? hm]
    simp only [Handler.shift, pair_eq ho, ok_bind, hw, hcount, if_pos hzero]
    rfl
  | shift hm ho hw hcount hzero hread hwrite =>
    rw [effect, Mnemonic.handler?_of_shift? hm]
    simp only [Handler.shift, pair_eq ho, ok_bind, hw, hcount, if_neg hzero, hread, hwrite]
    rfl
  | push hm ho hvalue hroom => exact effect_of_performs_push hm ho hvalue hroom
  | pop hm ho htop hwrite =>
    rw [effect, hm]
    simp only [Mnemonic.handler?, Handler.pop, single_eq ho, ok_bind, popWord_eq htop, hwrite]
    rfl
  | call hm ho hroom => exact effect_call hm ho hroom
  | ret hm ho htop => exact effect_ret hm ho htop
  | jmp hm ho => exact effect_jmp hm ho
  | jumpIf hm ho => exact effect_jumpIf hm ho

/-- The rules give the effects of the instructions, and nothing else. -/
theorem effect_eq_ok_iff : i.effect memory state = .ok e ↔ i.Performs memory state e :=
  ⟨performs_of_effect, effect_of_performs⟩

end Instruction

end X64
