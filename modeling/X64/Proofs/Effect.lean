import X64.Effect
import X64.Proofs.Except
import Mathlib.Tactic.Common

/-!
# Effects of single instructions

The effect of an instruction from what its operands give: `effect_mov`, `effect_binary` and
`effect_cmp` take the value that is read and the effect of the write, and `effect_push`,
`effect_pop`, `effect_call`, `effect_ret`, `effect_jmp` and `effect_jumpIf` take what the stack and
the flags hold. No caller opens a handler. An operation or a comparison that has an effect is taken
apart again by `effect_binary_eq_ok_iff` and `effect_cmp_eq_ok_iff`.

The stack lives below `rsp`, and `pushWord_eq` and `popWord_eq` say when it can be used.
-/

namespace X64

/-! ## Widths and registers -/

@[simp] theorem Width.truncate_qword (v : UInt64) : Width.qword.truncate v = v := by
  apply UInt64.toNat_inj.1
  rw [Width.toNat_truncate]
  exact Nat.mod_eq_of_lt v.toNat_lt

@[simp] theorem Width.truncate_truncate (w : Width) (v : UInt64) :
    w.truncate (w.truncate v) = w.truncate v := by
  unfold Width.truncate
  rw [UInt64.and_assoc, UInt64.and_self]

namespace State

variable (s : State)

@[simp] theorem get_advance_rip : s.advance.get .rip = s.get .rip + 1 :=
  get_set_self s .rip _

theorem get_advance_of_ne {r : Register} (h : r ≠ .rip) : s.advance.get r = s.get r :=
  get_set_of_ne s h _

@[simp] theorem get_jump_rip (target : Nat) : (s.jump target).get .rip = UInt64.ofNat target :=
  get_set_self s .rip _

theorem get_jump_of_ne {r : Register} (h : r ≠ .rip) (target : Nat) :
    (s.jump target).get r = s.get r :=
  get_set_of_ne s h _

theorem rip_advance_set {s : State} {index : Nat} (hrip : s.rip = UInt64.ofNat index)
    {r : Register} (h : r ≠ .rip) (value : UInt64) :
    ((s.set r value).advance).rip = UInt64.ofNat (index + 1) := by
  rw [rip, get_advance_rip, get_set_of_ne s (Ne.symm h), UInt64.ofNat_add]
  exact congrArg (· + 1) hrip

/-- A jump forgets the place from which it is taken. -/
theorem jump_set_jump (r : Register) (value : UInt64) (source target : Nat) :
    ((s.jump source).set r value).jump target = (s.set r value).jump target := by
  apply ext_get
  · intro q
    by_cases hq : q = .rip
    · rw [hq, get_jump_rip, get_jump_rip]
    · rw [get_jump_of_ne _ hq, get_jump_of_ne _ hq]
      by_cases hqr : q = r
      · rw [hqr, get_set_self, get_set_self]
      · rw [get_set_of_ne _ hqr, get_set_of_ne _ hqr, get_jump_of_ne _ hq]
  · rfl

theorem read_qword (r : Register) : s.read ⟨r, .qword⟩ = s.get r :=
  Width.truncate_qword (s.get r)

/-- A wide write leaves nothing of the old value. -/
theorem merge_of_wide {w : Width} (hw : w = .dword ∨ w = .qword) (old value : UInt64) :
    merge w old value = w.truncate value := by
  rcases hw with rfl | rfl
  · rfl
  · exact (Width.truncate_qword value).symm

theorem write_wide {w : Width} (hw : w = .dword ∨ w = .qword) (r : Register) (value : UInt64) :
    s.write ⟨r, w⟩ value = s.set r (w.truncate value) := by
  rw [write, merge_of_wide hw]

end State

variable {memory : Memory} {state : State}

theorem Operand.read_register (r : Register) :
    (Operand.register ⟨r, .qword⟩).read memory state .qword = .ok (state.get r) := by
  rw [Operand.read, State.read_qword, Width.truncate_qword]

/-! ## The stack -/

theorem storeEffect_eq {s : Store} (h : memory.InBounds s.address s.width.bytes) :
    storeEffect memory state s = .ok { state, store := some s } := by
  rw [storeEffect, Memory.check, if_pos h]

theorem storeEffect_of_not_inBounds {s : Store}
    (h : ¬memory.InBounds s.address s.width.bytes) :
    storeEffect memory state s =
      .error (.memory { address := s.address, length := s.width.bytes, size := memory.size }) := by
  rw [storeEffect, Memory.check, if_neg h]

/-- A push works if there is room for a slot below `rsp`. -/
theorem pushWord_eq (h : memory.InBounds (state.rsp - slotSize) Width.qword.bytes)
    (value : UInt64) :
    pushWord memory state value =
      .ok { state := state.set .rsp (state.rsp - slotSize)
            store := some ⟨state.rsp - slotSize, .qword, value⟩ } :=
  storeEffect_eq h

/-- A pop takes the slot at `rsp`. -/
theorem popWord_eq {value : UInt64} (h : memory.read state.rsp .qword = .ok value) :
    popWord memory state = .ok (value, state.set .rsp (state.rsp + slotSize)) := by
  rw [popWord, loadWord, h]
  rfl

/-! ## Instructions -/

namespace Instruction

variable {i : Instruction} {dst src : Operand} {w : Width} {a b value : UInt64} {e : Effect}

theorem pair_eq (ho : i.operands = [dst, src]) : i.pair = .ok (dst, src) := by
  rw [pair, ho]

theorem pair_eq_error (ho : ∀ dst src, i.operands ≠ [dst, src]) :
    i.pair = .error (.operandCount i.render) := by
  unfold pair
  split
  · next dst src heq => exact absurd heq (ho dst src)
  · rfl

theorem single_eq {o : Operand} (ho : i.operands = [o]) : i.single = .ok o := by
  rw [single, ho]

theorem target_eq {name : String} {target : Nat} (ho : i.operands = [.label name target]) :
    i.target = .ok target := by
  rw [Instruction.target, single_eq ho]
  rfl

/-- Two operands are used at the width that both fix, or that one of them fixes alone. -/
theorem commonWidth_eq_ok_iff :
    i.commonWidth dst src = .ok w ↔
      dst.width?.getD w = w ∧ src.width?.getD w = w ∧ (dst.width?.isSome ∨ src.width?.isSome) := by
  unfold commonWidth
  cases dst.width? with
  | none => cases src.width? <;> simp
  | some a =>
    cases src.width? with
    | none => simp
    | some b =>
      by_cases hab : a = b
      · simp [hab]
      · simp only [if_neg hab, Option.getD_some, reduceCtorEq, false_iff, not_and]
        intro ha hb
        exact absurd (ha.trans hb.symm) hab

/-- Two operands are used at the width of the first if the second fixes no other. -/
theorem commonWidth_eq (hdst : dst.width? = some w) (hsrc : src.width?.getD w = w) :
    i.commonWidth dst src = .ok w :=
  commonWidth_eq_ok_iff.2 ⟨by rw [hdst]; rfl, hsrc, Or.inl (by rw [hdst]; rfl)⟩

/-- A `mov` takes the value of its second operand at one width, and writes it to the first. It does
not copy from memory to memory. -/
theorem effect_mov_eq_ok_iff (hm : i.mnemonic = .mov) (ho : i.operands = [dst, src]) :
    i.effect memory state = .ok e ↔ (dst.isMemory && src.isMemory) = false ∧
      ∃ w value e', i.commonWidth dst src = .ok w ∧ src.read memory state w = .ok value ∧
        dst.write memory state w value = .ok e' ∧ e = e'.mapState State.advance := by
  rw [effect, hm]
  simp only [Mnemonic.handler?, Handler.mov, pair_eq ho, ok_bind]
  cases dst.isMemory && src.isMemory with
  | true => simp [throw, throwThe, MonadExceptOf.throw, bind, Except.bind]
  | false =>
    simp only [Bool.false_eq_true, if_false, true_and]
    constructor
    · intro h
      obtain ⟨w, hw, h⟩ := bind_eq_ok_iff.1 h
      obtain ⟨value, hread, h⟩ := bind_eq_ok_iff.1 h
      obtain ⟨e', hwrite, heq⟩ := bind_eq_ok_iff.1 h
      exact ⟨w, value, e', hw, hread, hwrite, (Except.ok.inj heq).symm⟩
    · rintro ⟨w, value, e', hw, hread, hwrite, rfl⟩
      rw [hw, ok_bind, hread, ok_bind, hwrite]
      rfl

theorem effect_mov (hm : i.mnemonic = .mov) (ho : i.operands = [dst, src])
    (hmemory : (dst.isMemory && src.isMemory) = false) (hw : i.commonWidth dst src = .ok w)
    (hread : src.read memory state w = .ok value)
    (hwrite : dst.write memory state w value = .ok e) :
    i.effect memory state = .ok (e.mapState State.advance) :=
  (effect_mov_eq_ok_iff hm ho).2 ⟨hmemory, w, value, e, hw, hread, hwrite, rfl⟩

/-- An operation takes the values of its operands at one width, and its result is written to the
first of them. -/
theorem effect_binary_eq_ok_iff {op : Alu.Operation}
    (hm : i.mnemonic.handler? = some (Handler.binary op)) (ho : i.operands = [dst, src]) :
    i.effect memory state = .ok e ↔ ∃ w a b e', i.commonWidth dst src = .ok w ∧
      dst.read memory state w = .ok a ∧ src.read memory state w = .ok b ∧
      dst.write memory state w (op w a b).value = .ok e' ∧
      e = e'.mapState fun s => (s.withFlags (op w a b).flags).advance := by
  rw [effect, hm]
  simp only [Handler.binary, pair_eq ho, ok_bind, bind_eq_ok_iff]
  constructor
  · rintro ⟨w, hw, a, ha, b, hb, e', hwrite, heq⟩
    exact ⟨w, a, b, e', hw, ha, hb, hwrite, (Except.ok.inj heq).symm⟩
  · rintro ⟨w, a, b, e', hw, ha, hb, hwrite, rfl⟩
    exact ⟨w, hw, a, ha, b, hb, e', hwrite, rfl⟩

theorem effect_binary {op : Alu.Operation} (hm : i.mnemonic.handler? = some (Handler.binary op))
    (ho : i.operands = [dst, src]) (hw : i.commonWidth dst src = .ok w)
    (ha : dst.read memory state w = .ok a) (hb : src.read memory state w = .ok b)
    (hwrite : dst.write memory state w (op w a b).value = .ok e) :
    i.effect memory state =
      .ok (e.mapState fun s => (s.withFlags (op w a b).flags).advance) :=
  (effect_binary_eq_ok_iff hm ho).2 ⟨w, a, b, e, hw, ha, hb, hwrite, rfl⟩

/-- A comparison takes the values of its operands at one width and stores nothing. -/
theorem effect_cmp_eq_ok_iff (hm : i.mnemonic = .cmp) (ho : i.operands = [dst, src]) :
    i.effect memory state = .ok e ↔ ∃ w a b, i.commonWidth dst src = .ok w ∧
      dst.read memory state w = .ok a ∧ src.read memory state w = .ok b ∧
      e = { state := (state.withFlags (Alu.sub w a b).flags).advance } := by
  rw [effect, hm]
  simp only [Mnemonic.handler?, Handler.cmp, pair_eq ho, ok_bind, bind_eq_ok_iff]
  constructor
  · rintro ⟨w, hw, a, ha, b, hb, heq⟩
    exact ⟨w, a, b, hw, ha, hb, (Except.ok.inj heq).symm⟩
  · rintro ⟨w, a, b, hw, ha, hb, rfl⟩
    exact ⟨w, hw, a, ha, b, hb, rfl⟩

theorem effect_cmp (hm : i.mnemonic = .cmp) (ho : i.operands = [dst, src])
    (hw : i.commonWidth dst src = .ok w) (ha : dst.read memory state w = .ok a)
    (hb : src.read memory state w = .ok b) :
    i.effect memory state =
      .ok { state := (state.withFlags (Alu.sub w a b).flags).advance } :=
  (effect_cmp_eq_ok_iff hm ho).2 ⟨w, a, b, hw, ha, hb, rfl⟩

theorem effect_push {r : Register} (hm : i.mnemonic = .push)
    (ho : i.operands = [.register ⟨r, .qword⟩])
    (hroom : memory.InBounds (state.rsp - slotSize) Width.qword.bytes) :
    i.effect memory state =
      .ok { state := (state.set .rsp (state.rsp - slotSize)).advance
            store := some ⟨state.rsp - slotSize, .qword, state.get r⟩ } := by
  rw [effect, hm]
  simp only [Mnemonic.handler?, Handler.push, single_eq ho, ok_bind, Operand.width?,
    Option.getD_some, Operand.read_register, pushWord_eq hroom]
  rfl

theorem effect_pop {r : Register} (hm : i.mnemonic = .pop)
    (ho : i.operands = [.register ⟨r, .qword⟩])
    (htop : memory.read state.rsp .qword = .ok value) :
    i.effect memory state =
      .ok { state := ((state.set .rsp (state.rsp + slotSize)).set r value).advance } := by
  rw [effect, hm]
  simp only [Mnemonic.handler?, Handler.pop, single_eq ho, ok_bind, popWord_eq htop]
  rfl

theorem effect_call {name : String} {target : Nat} (hm : i.mnemonic = .call)
    (ho : i.operands = [.label name target])
    (hroom : memory.InBounds (state.rsp - slotSize) Width.qword.bytes) :
    i.effect memory state =
      .ok { state := (state.set .rsp (state.rsp - slotSize)).jump target
            store := some ⟨state.rsp - slotSize, .qword, state.rip + 1⟩ } := by
  rw [effect, hm]
  simp only [Mnemonic.handler?, Handler.call, target_eq ho, ok_bind, pushWord_eq hroom]
  rfl

theorem effect_call_error {name : String} {target : Nat} (hm : i.mnemonic = .call)
    (ho : i.operands = [.label name target])
    (hroom : ¬memory.InBounds (state.rsp - slotSize) Width.qword.bytes) :
    i.effect memory state =
      .error (.memory ⟨state.rsp - slotSize, Width.qword.bytes, memory.size⟩) := by
  rw [effect, hm]
  simp only [Mnemonic.handler?, Handler.call, target_eq ho, ok_bind, pushWord]
  rw [storeEffect_of_not_inBounds hroom]
  rfl

theorem effect_ret (hm : i.mnemonic = .ret) (ho : i.operands = [])
    (htop : memory.read state.rsp .qword = .ok value) :
    i.effect memory state =
      .ok { state := (state.set .rsp (state.rsp + slotSize)).set .rip value } := by
  rw [effect, hm]
  simp only [Mnemonic.handler?, Handler.ret, ho, popWord_eq htop]
  rfl

theorem effect_jmp {name : String} {target : Nat} (hm : i.mnemonic = .jmp)
    (ho : i.operands = [.label name target]) :
    i.effect memory state = .ok { state := state.jump target } := by
  rw [effect, hm]
  simp only [Mnemonic.handler?, Handler.jmp, target_eq ho, ok_bind]
  rfl

theorem effect_jumpIf {c : Condition} {name : String} {target : Nat}
    (hm : i.mnemonic = .jumpIf c) (ho : i.operands = [.label name target]) :
    i.effect memory state =
      .ok { state := if c.holds state.flags then state.jump target else state.advance } := by
  rw [effect, hm]
  simp only [Mnemonic.handler?, Handler.jumpIf, target_eq ho, ok_bind, hm, Mnemonic.condition?]
  rfl

end Instruction

end X64
