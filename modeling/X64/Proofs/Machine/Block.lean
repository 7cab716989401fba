import X64.Proofs.Alu
import X64.Proofs.Machine.Run
import X64.Proofs.Stack
import Mathlib.Logic.Function.Basic

/-!
# Blocks of code

A `Snapshot` is what is known of a machine between two instructions, and a `Block` is a promise: a
machine that shows the first snapshot shows the second after the given number of steps. Blocks are
put together with `Block.trans`.

There is one rule for each instruction, in terms of snapshots. A rule about a source operand asks
for `Snapshot.Reads`, and a rule about a store asks which slots are known afterwards.
-/

namespace X64

/-- What is known of a machine between two instructions: the index of the next instruction, the
registers other than `rip`, and some words on the stack. -/
structure Snapshot where
  index : Nat
  registers : Register → UInt64
  stack : List Slot

/-- The machine runs the program `q` in a memory of `top` bytes, it has not exited and has not
written anything, and the snapshot is true of it. -/
structure Machine.Shows (m : Machine) (q : Program) (top : Nat) (s : Snapshot) : Prop where
  program_eq : m.program = q
  size_lt : q.size < UInt64.size
  exitStatus_eq : m.exitStatus = none
  output_eq : m.output = {}
  rip_eq : m.state.rip = UInt64.ofNat s.index
  get_eq : ∀ r, r ≠ .rip → m.state.get r = s.registers r
  holds : m.memory.Holds top s.stack

/-- From the first snapshot the machine gets to the second in `k` steps. -/
def Block (q : Program) (top k : Nat) (s t : Snapshot) : Prop :=
  ∀ m : Machine, m.Shows q top s → ∃ v, m.after? k = some v ∧ v.Shows q top t

variable {q : Program} {top : Nat} {s t u : Snapshot} {m : Machine}

/-! ## Registers of a snapshot -/

namespace Machine.Shows

theorem rip_advance_set (hm : m.Shows q top s) {r : Register} (hr : r ≠ .rip) (v : UInt64) :
    ((m.state.set r v).advance).rip = UInt64.ofNat (s.index + 1) :=
  State.rip_advance_set hm.rip_eq hr v

theorem get_set (hm : m.Shows q top s) (r : Register) (v : UInt64) {p : Register} (hp : p ≠ .rip) :
    (m.state.set r v).get p = Function.update s.registers r v p := by
  by_cases hpr : p = r
  · rw [hpr, State.get_set_self, Function.update_self]
  · rw [State.get_set_of_ne _ hpr, Function.update_of_ne hpr, hm.get_eq p hp]

theorem get_advance_set (hm : m.Shows q top s) (r : Register) (v : UInt64) {p : Register}
    (hp : p ≠ .rip) :
    ((m.state.set r v).advance).get p = Function.update s.registers r v p := by
  rw [State.get_advance_of_ne _ hp, hm.get_set r v hp]

theorem rip_advance (hm : m.Shows q top s) :
    m.state.advance.rip = UInt64.ofNat (s.index + 1) := by
  rw [UInt64.ofNat_add, ← hm.rip_eq]
  exact State.get_advance_rip m.state

/-- The top of the stack, a slot further down. -/
theorem rsp_sub (hm : m.Shows q top s) {depth : Nat} (hrsp : s.registers .rsp = below top depth)
    (hdepth : depth + 8 ≤ top) : m.state.rsp - slotSize = below top (depth + 8) := by
  rw [State.rsp, hm.get_eq .rsp (by decide), hrsp]
  exact below_sub hdepth

/-- The top of the stack, a slot further up. -/
theorem rsp_add (hm : m.Shows q top s) {depth : Nat} (hrsp : s.registers .rsp = below top depth)
    (hslot : 8 ≤ depth) (hdepth : depth ≤ top) :
    m.state.rsp + slotSize = below top (depth - 8) := by
  rw [State.rsp, hm.get_eq .rsp (by decide), hrsp]
  exact below_add hslot hdepth

end Machine.Shows

/-! ## Source operands -/

/-- In every machine that shows the snapshot, the operand has the given value. -/
def Snapshot.Reads (s : Snapshot) (q : Program) (top : Nat) (src : Operand) (w : Width)
    (v : UInt64) : Prop :=
  ∀ m : Machine, m.Shows q top s → src.read m.memory m.state w = .ok v

namespace Snapshot

theorem reads_register {r : Register} (hr : r ≠ .rip) (w : Width) :
    s.Reads q top (.register ⟨r, w⟩) w (w.truncate (s.registers r)) := by
  intro m hm
  rw [Operand.read, State.read, Width.truncate_truncate, hm.get_eq r hr]

theorem reads_immediate (x : Int64) (w : Width) :
    s.Reads q top (.immediate x) w (w.truncate x.toUInt64) :=
  fun _ _ => rfl

theorem reads_slot {b : Register} (hb : b ≠ .rip) {d : Int64} {slot : Slot}
    (hslot : slot ∈ s.stack) (haddress : s.registers b + d.toUInt64 = below top slot.depth) :
    s.Reads q top (.memory ⟨some slot.width, some b, d⟩) slot.width slot.value := by
  intro m hm
  have hread := hm.holds.read_eq slot hslot
  have hbase : m.state.get b + d.toUInt64 = below top slot.depth := by
    rw [hm.get_eq b hb, haddress]
  show loadWord m.memory (m.state.get b + d.toUInt64) slot.width = .ok slot.value
  rw [hbase, loadWord, hread]
  rfl

end Snapshot

/-! ## Rules -/

namespace Block

theorem trans {j k : Nat} (h : Block q top j s t) (h' : Block q top k t u) :
    Block q top (j + k) s u := by
  intro m hm
  obtain ⟨v, hv, hshows⟩ := h m hm
  obtain ⟨w, hw, hshows'⟩ := h' v hshows
  exact ⟨w, Machine.after?_trans hv hw, hshows'⟩

/-- Slots can be forgotten. -/
theorem forget {k i : Nat} {registers : Register → UInt64} {stack stack' : List Slot}
    (h : Block q top k s ⟨i, registers, stack⟩) (hsub : stack' ⊆ stack) :
    Block q top k s ⟨i, registers, stack'⟩ := by
  intro m hm
  obtain ⟨v, hv, hshows⟩ := h m hm
  exact ⟨v, hv, { hshows with holds := hshows.holds.mono hsub }⟩

/-- A step of an ordinary instruction, to a snapshot that describes its effect. -/
theorem exists_after?_one {i : Instruction} {e : Effect} (hm : m.Shows q top s)
    (hi : q.instructions[s.index]? = some i) (hne : i.mnemonic ≠ .syscall)
    (he : i.effect m.memory m.state = .ok e) (hrip : e.state.rip = UInt64.ofNat t.index)
    (hget : ∀ r, r ≠ .rip → e.state.get r = t.registers r)
    (hholds : (e.commit m.memory).Holds top t.stack) :
    ∃ v, m.after? 1 = some v ∧ v.Shows q top t ∧ v.state = e.state := by
  obtain ⟨hindex, -⟩ := Array.getElem?_eq_some_iff.1 hi
  have hcurrent : m.current? = some i := by
    rw [Machine.current?_eq hm.exitStatus_eq hm.rip_eq (Nat.lt_trans hindex hm.size_lt),
      hm.program_eq, hi]
  have hnext := Machine.next?_of_effect hcurrent hne he
  rw [← Machine.after?_one] at hnext
  exact ⟨_, hnext,
    ⟨hm.program_eq, hm.size_lt, hm.exitStatus_eq, hm.output_eq, hrip, hget, hholds⟩, rfl⟩

/-- The rule behind most others. -/
theorem of_effect {i : Instruction} (hi : q.instructions[s.index]? = some i)
    (hne : i.mnemonic ≠ .syscall)
    (h : ∀ m : Machine, m.Shows q top s → ∃ e, i.effect m.memory m.state = .ok e ∧
      e.state.rip = UInt64.ofNat t.index ∧
        (∀ r, r ≠ .rip → e.state.get r = t.registers r) ∧ (e.commit m.memory).Holds top t.stack) :
    Block q top 1 s t := by
  intro m hm
  obtain ⟨e, he, hrip, hget, hholds⟩ := h m hm
  obtain ⟨v, hv, hshows, -⟩ := exists_after?_one hm hi hne he hrip hget hholds
  exact ⟨v, hv, hshows⟩

variable {r : Register} {w : Width} {src : Operand} {v : UInt64} {line : Nat}

/-- `mov` to a register. -/
theorem mov (hi : q.instructions[s.index]? = some ⟨.mov, [.register ⟨r, w⟩, src], line⟩)
    (hr : r ≠ .rip) (hw : w = .dword ∨ w = .qword) (hsrc : src.width?.getD w = w)
    (hread : s.Reads q top src w v) :
    Block q top 1 s ⟨s.index + 1, Function.update s.registers r (w.truncate v), s.stack⟩ := by
  refine of_effect hi (show Mnemonic.mov ≠ .syscall by decide) fun m hm => ?_
  have hwrite : (Operand.register ⟨r, w⟩).write m.memory m.state w v =
      .ok { state := m.state.set r (w.truncate v) } := by
    rw [Operand.write, State.write_wide _ hw]
  have heffect := Instruction.effect_mov (i := ⟨.mov, [.register ⟨r, w⟩, src], line⟩) rfl rfl rfl
    (Instruction.commonWidth_eq rfl hsrc) (hread m hm) hwrite
  exact ⟨_, heffect, hm.rip_advance_set hr _, fun p hp => hm.get_advance_set r _ hp, hm.holds⟩

/-- `mov` to the stack. -/
theorem store (slot : Slot) {b : Register} {d : Int64} {stack : List Slot}
    (hi : q.instructions[s.index]? =
      some ⟨.mov, [.memory ⟨some slot.width, some b, d⟩, src], line⟩)
    (hb : b ≠ .rip) (hmemory : src.isMemory = false)
    (hsrc : src.width?.getD slot.width = slot.width)
    (hread : s.Reads q top src slot.width v) (hv : slot.width.truncate v = slot.value)
    (haddress : s.registers b + d.toUInt64 = below top slot.depth)
    (hlength : slot.width.bytes ≤ slot.depth) (hdepth : slot.depth ≤ top)
    (hstack : ∀ u ∈ stack, u = slot ∨ u ∈ s.stack ∧ u.Apart slot) :
    Block q top 1 s ⟨s.index + 1, s.registers, stack⟩ := by
  refine of_effect hi (show Mnemonic.mov ≠ .syscall by decide) fun m hm => ?_
  have hbase : (Reference.mk (some slot.width) (some b) d).address m.state =
      below top slot.depth := by
    rw [Reference.address, ← haddress, ← hm.get_eq b hb]
  have hwrite : (Operand.memory ⟨some slot.width, some b, d⟩).write m.memory m.state slot.width v =
      .ok { state := m.state, store := some ⟨below top slot.depth, slot.width, v⟩ } := by
    rw [Operand.write, hbase]
    exact storeEffect_eq (hm.holds.inBounds hlength hdepth)
  have heffect := Instruction.effect_mov
    (i := ⟨.mov, [.memory ⟨some slot.width, some b, d⟩, src], line⟩) rfl rfl
    (by rw [hmemory, Bool.and_false]) (Instruction.commonWidth_eq rfl hsrc) (hread m hm) hwrite
  refine ⟨_, heffect, hm.rip_advance, ?_, hm.holds.store hlength hdepth hv hstack⟩
  intro p hp
  exact (State.get_advance_of_ne _ hp).trans (hm.get_eq p hp)

/-- An operation whose result goes to a register. -/
theorem binary {m : Mnemonic} {op : Alu.Operation} {a : UInt64}
    (hi : q.instructions[s.index]? = some ⟨m, [.register ⟨r, w⟩, src], line⟩)
    (hm : m.handler? = some (Handler.binary op)) (hr : r ≠ .rip) (hw : w = .dword ∨ w = .qword)
    (hsrc : src.width?.getD w = w) (ha : s.Reads q top (.register ⟨r, w⟩) w a)
    (hread : s.Reads q top src w v) :
    Block q top 1 s
      ⟨s.index + 1, Function.update s.registers r (w.truncate (op w a v).value), s.stack⟩ := by
  have hne : m ≠ .syscall := by
    intro heq
    subst heq
    exact absurd hm (by simp [Mnemonic.handler?])
  refine of_effect hi hne fun u hu => ?_
  have hwrite : (Operand.register ⟨r, w⟩).write u.memory u.state w (op w a v).value =
      .ok { state := u.state.set r (w.truncate (op w a v).value) } := by
    rw [Operand.write, State.write_wide _ hw]
  have heffect := Instruction.effect_binary (i := ⟨m, [.register ⟨r, w⟩, src], line⟩) hm rfl
    (Instruction.commonWidth_eq rfl hsrc) (ha u hu) (hread u hu) hwrite
  refine ⟨_, heffect, hu.rip_advance_set hr _, ?_, hu.holds⟩
  intro p hp
  exact hu.get_advance_set r _ hp

/-- `push` of a register. -/
theorem push {depth : Nat} {stack : List Slot}
    (hi : q.instructions[s.index]? = some ⟨.push, [.register ⟨r, .qword⟩], line⟩) (hr : r ≠ .rip)
    (hrsp : s.registers .rsp = below top depth) (hdepth : depth + 8 ≤ top)
    (hstack : ∀ u ∈ stack, u = ⟨depth + 8, .qword, s.registers r⟩ ∨
      u ∈ s.stack ∧ u.Apart ⟨depth + 8, .qword, s.registers r⟩) :
    Block q top 1 s
      ⟨s.index + 1, Function.update s.registers .rsp (below top (depth + 8)), stack⟩ := by
  refine of_effect hi (show Mnemonic.push ≠ .syscall by decide) fun m hm => ?_
  have hsub := hm.rsp_sub hrsp hdepth
  have hroom : m.memory.InBounds (m.state.rsp - slotSize) Width.qword.bytes := by
    rw [hsub]
    exact hm.holds.inBounds (Nat.le_add_left 8 depth) hdepth
  have heffect :=
    Instruction.effect_push (i := ⟨.push, [.register ⟨r, .qword⟩], line⟩) rfl rfl hroom
  rw [hsub] at heffect
  refine ⟨_, heffect, hm.rip_advance_set (by decide) _, fun p hp => hm.get_advance_set _ _ hp, ?_⟩
  rw [hm.get_eq r hr]
  exact hm.holds.store (t := ⟨depth + 8, .qword, s.registers r⟩) (Nat.le_add_left 8 depth) hdepth
    (Width.truncate_qword _) hstack

/-- `pop` to a register. -/
theorem pop {depth : Nat}
    (hi : q.instructions[s.index]? = some ⟨.pop, [.register ⟨r, .qword⟩], line⟩) (hr : r ≠ .rip)
    (hrsp : s.registers .rsp = below top depth) (htop : ⟨depth, .qword, v⟩ ∈ s.stack) :
    Block q top 1 s
      ⟨s.index + 1,
        Function.update (Function.update s.registers .rsp (below top (depth - 8))) r v,
        s.stack⟩ := by
  refine of_effect hi (show Mnemonic.pop ≠ .syscall by decide) fun m hm => ?_
  obtain ⟨hslot, hdepth⟩ := hm.holds.inside _ htop
  have hread : m.memory.read m.state.rsp .qword = .ok v := by
    rw [State.rsp, hm.get_eq .rsp (by decide), hrsp]
    exact hm.holds.read_eq _ htop
  have heffect := Instruction.effect_pop (i := ⟨.pop, [.register ⟨r, .qword⟩], line⟩) rfl rfl hread
  rw [hm.rsp_add hrsp hslot hdepth] at heffect
  have hrip : (m.state.set .rsp (below top (depth - 8))).rip = UInt64.ofNat s.index :=
    (State.get_set_of_ne _ (by decide) _).trans hm.rip_eq
  refine ⟨_, heffect, State.rip_advance_set hrip hr v, ?_, hm.holds⟩
  intro p hp
  refine (State.get_advance_of_ne _ hp).trans ?_
  show _ = Function.update (Function.update s.registers .rsp _) r v p
  by_cases hpr : p = r
  · rw [hpr, State.get_set_self, Function.update_self]
  · rw [State.get_set_of_ne _ hpr, Function.update_of_ne hpr, hm.get_set _ _ hp]

/-- `call` of a label. -/
theorem call {name : String} {target depth : Nat} {stack : List Slot}
    (hi : q.instructions[s.index]? = some ⟨.call, [.label name target], line⟩)
    (hrsp : s.registers .rsp = below top depth) (hdepth : depth + 8 ≤ top)
    (hstack : ∀ u ∈ stack, u = ⟨depth + 8, .qword, UInt64.ofNat (s.index + 1)⟩ ∨
      u ∈ s.stack ∧ u.Apart ⟨depth + 8, .qword, UInt64.ofNat (s.index + 1)⟩) :
    Block q top 1 s
      ⟨target, Function.update s.registers .rsp (below top (depth + 8)), stack⟩ := by
  refine of_effect hi (show Mnemonic.call ≠ .syscall by decide) fun m hm => ?_
  have hsub := hm.rsp_sub hrsp hdepth
  have hroom : m.memory.InBounds (m.state.rsp - slotSize) Width.qword.bytes := by
    rw [hsub]
    exact hm.holds.inBounds (Nat.le_add_left 8 depth) hdepth
  have hreturn : m.state.rip + 1 = UInt64.ofNat (s.index + 1) := by
    rw [hm.rip_eq, UInt64.ofNat_add]
    rfl
  have heffect := Instruction.effect_call (i := ⟨.call, [.label name target], line⟩) rfl rfl hroom
  rw [hsub, hreturn] at heffect
  refine ⟨_, heffect, State.get_jump_rip _ _, ?_, ?_⟩
  · intro p hp
    exact (State.get_jump_of_ne _ hp _).trans (hm.get_set _ _ hp)
  · exact hm.holds.store (t := ⟨depth + 8, .qword, UInt64.ofNat (s.index + 1)⟩)
      (Nat.le_add_left 8 depth) hdepth (Width.truncate_qword _) hstack

/-- `ret` to the index on top of the stack. -/
theorem ret {depth target : Nat} (hi : q.instructions[s.index]? = some ⟨.ret, [], line⟩)
    (hrsp : s.registers .rsp = below top depth)
    (htop : ⟨depth, .qword, UInt64.ofNat target⟩ ∈ s.stack) :
    Block q top 1 s
      ⟨target, Function.update s.registers .rsp (below top (depth - 8)), s.stack⟩ := by
  refine of_effect hi (show Mnemonic.ret ≠ .syscall by decide) fun m hm => ?_
  obtain ⟨hslot, hdepth⟩ := hm.holds.inside _ htop
  have hread : m.memory.read m.state.rsp .qword = .ok (UInt64.ofNat target) := by
    rw [State.rsp, hm.get_eq .rsp (by decide), hrsp]
    exact hm.holds.read_eq _ htop
  have heffect := Instruction.effect_ret (i := ⟨.ret, [], line⟩) rfl rfl hread
  rw [hm.rsp_add hrsp hslot hdepth] at heffect
  refine ⟨_, heffect, State.get_set_self _ _ _, ?_, hm.holds⟩
  intro p hp
  exact (State.get_set_of_ne _ hp _).trans (hm.get_set _ _ hp)

/-- `jmp` to a label. -/
theorem jmp {name : String} {target : Nat}
    (hi : q.instructions[s.index]? = some ⟨.jmp, [.label name target], line⟩) :
    Block q top 1 s ⟨target, s.registers, s.stack⟩ := by
  refine of_effect hi (show Mnemonic.jmp ≠ .syscall by decide) fun m hm => ?_
  refine ⟨_, Instruction.effect_jmp rfl rfl, State.get_jump_rip _ _, ?_, hm.holds⟩
  intro p hp
  exact (State.get_jump_of_ne _ hp _).trans (hm.get_eq p hp)

/-- A comparison, and the conditional jump behind it. -/
theorem cmp_jumpIf {c : Condition} {dst : Operand} {a b : UInt64} {name : String}
    {target line' : Nat} (hi : q.instructions[s.index]? = some ⟨.cmp, [dst, src], line⟩)
    (hi' : q.instructions[s.index + 1]? = some ⟨.jumpIf c, [.label name target], line'⟩)
    (hdst : dst.width? = some w) (hsrc : src.width?.getD w = w) (ha : s.Reads q top dst w a)
    (hb : s.Reads q top src w b) :
    Block q top 2 s
      ⟨if c.holds (Alu.sub w a b).flags then target else s.index + 2, s.registers, s.stack⟩ := by
  intro m hm
  have hcmp := Instruction.effect_cmp (i := ⟨.cmp, [dst, src], line⟩) rfl rfl
    (Instruction.commonWidth_eq hdst hsrc) (ha m hm) (hb m hm)
  obtain ⟨u, hu, hshows, hstate⟩ :=
    exists_after?_one (t := ⟨s.index + 1, s.registers, s.stack⟩) hm hi
      (show Mnemonic.cmp ≠ .syscall by decide) hcmp hm.rip_advance
      (fun p hp => (State.get_advance_of_ne _ hp).trans (hm.get_eq p hp)) hm.holds
  have hflags : u.state.flags = (Alu.sub w a b).flags := by rw [hstate]; rfl
  have hjump : (Instruction.mk (.jumpIf c) [.label name target] line').effect u.memory u.state =
      .ok { state :=
        if c.holds (Alu.sub w a b).flags then u.state.jump target else u.state.advance } := by
    rw [← hflags]
    exact Instruction.effect_jumpIf rfl rfl
  have hget : ∀ p, p ≠ .rip → (if c.holds (Alu.sub w a b).flags then u.state.jump target
      else u.state.advance).get p = s.registers p := by
    intro p hp
    rw [← hshows.get_eq p hp]
    split
    · exact State.get_jump_of_ne _ hp _
    · exact State.get_advance_of_ne _ hp
  have hrip : (if c.holds (Alu.sub w a b).flags then u.state.jump target
      else u.state.advance).rip =
        UInt64.ofNat (if c.holds (Alu.sub w a b).flags then target else s.index + 2) := by
    split
    · exact State.get_jump_rip _ _
    · exact hshows.rip_advance
  obtain ⟨v, hv, hshows', -⟩ := exists_after?_one
    (t := ⟨if c.holds (Alu.sub w a b).flags then target else s.index + 2, s.registers, s.stack⟩)
    hshows hi' (show Mnemonic.jumpIf c ≠ .syscall by simp) hjump hrip hget hshows.holds
  exact ⟨v, Machine.after?_trans hu hv, hshows'⟩

end Block

end X64
