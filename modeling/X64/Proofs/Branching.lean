import X64.Proofs.Alu
import X64.Proofs.Effect

/-!
# Comparing and branching

A comparison leaves flags behind, and a conditional jump after it reads them. The jump is taken
exactly when the signed values of the compared operands are in the order of its condition, whatever
the operands are and at every width (`comparison_decides_jump`). A subtraction of the same operands
leaves the same flags, because both work at the same width (`flags_of_effect_sub`).
-/

namespace X64

namespace Instruction

variable {i j : Instruction} {dst src : Operand} {w : Width} {memory : Memory} {state : State}
  {e : Effect}

/-- The width at which two operands are used does not depend on the instruction. -/
theorem commonWidth_congr (h : i.commonWidth dst src = .ok w) : j.commonWidth dst src = .ok w :=
  commonWidth_eq_ok_iff.2 (commonWidth_eq_ok_iff.1 h)

/-- A subtraction leaves the flags of a comparison of its operands. -/
theorem flags_of_effect_sub (hi : i.mnemonic = .cmp) (hio : i.operands = [dst, src])
    (hj : j.mnemonic = .sub) (hjo : j.operands = [dst, src]) (h : j.effect memory state = .ok e) :
    ∃ e', i.effect memory state = .ok e' ∧ e'.state.flags = e.state.flags := by
  have hhandler : j.mnemonic.handler? = some (Handler.binary Alu.sub) := by rw [hj]; rfl
  obtain ⟨w, a, b, written, hw, ha, hb, -, rfl⟩ := (effect_binary_eq_ok_iff hhandler hjo).1 h
  exact ⟨_, effect_cmp hi hio (commonWidth_congr hw) ha hb, rfl⟩

/-- What a conditional jump to a label does: it moves to the target or to the next instruction, and
leaves everything but `rip` as it was. -/
theorem exists_effect_jumpIf (memory : Memory) (state : State) {c : Condition} {name : String}
    {target : Nat} (hj : j.mnemonic = .jumpIf c) (hjo : j.operands = [.label name target]) :
    ∃ e, j.effect memory state = .ok e ∧
      e.state.rip = (if c.holds state.flags then UInt64.ofNat target else state.rip + 1) ∧
      (∀ r, r ≠ .rip → e.state.get r = state.get r) ∧ e.state.flags = state.flags ∧
      e.commit memory = memory := by
  refine ⟨_, effect_jumpIf hj hjo, ?_⟩
  cases c.holds state.flags with
  | true =>
    exact ⟨State.get_jump_rip _ _, fun r hr => State.get_jump_of_ne _ hr _, rfl, rfl⟩
  | false =>
    exact ⟨State.get_advance_rip _, fun r hr => State.get_advance_of_ne _ hr, rfl, rfl⟩

end Instruction

/-- Comparing and branching work on signed values. After a comparison a condition holds exactly when
the values of the operands, at their common width, are in its order, and a conditional jump goes to
its target in that case and to the next instruction otherwise. A subtraction of the operands, where
it succeeds, leaves the same flags. -/
theorem comparison_decides_jump (memory : Memory) (state : State) (x y : Operand) :
    (∀ (i : Instruction) (e : Effect), i.mnemonic = .cmp → i.operands = [x, y] →
      i.effect memory state = .ok e →
        ∃ w a b, i.commonWidth x y = .ok w ∧ x.read memory state w = .ok a ∧
          y.read memory state w = .ok b ∧
          (∀ c : Condition,
            c.holds e.state.flags = decide (c.Orders (w.signed a) (w.signed b))) ∧
          ∀ (c : Condition) (j : Instruction) (name : String) (target : Nat),
            j.mnemonic = .jumpIf c → j.operands = [.label name target] →
              ∃ e', j.effect (e.commit memory) e.state = .ok e' ∧
                e'.state.rip =
                  (if c.Orders (w.signed a) (w.signed b) then UInt64.ofNat target
                    else e.state.rip + 1) ∧
                (∀ r, r ≠ .rip → e'.state.get r = e.state.get r) ∧
                e'.state.flags = e.state.flags ∧
                e'.commit (e.commit memory) = e.commit memory) ∧
      ∀ (i j : Instruction) (e' : Effect), i.mnemonic = .cmp → i.operands = [x, y] →
        j.mnemonic = .sub → j.operands = [x, y] → j.effect memory state = .ok e' →
          ∃ e, i.effect memory state = .ok e ∧ e.state.flags = e'.state.flags := by
  constructor
  · intro i e hi ho he
    obtain ⟨w, a, b, hw, ha, hb, rfl⟩ := (Instruction.effect_cmp_eq_ok_iff hi ho).1 he
    have hholds : ∀ c : Condition, c.holds (Alu.sub w a b).flags =
        decide (c.Orders (w.signed a) (w.signed b)) := fun c => Alu.holds_sub c w a b
    refine ⟨w, a, b, hw, ha, hb, hholds, ?_⟩
    intro c j name target hj hjo
    obtain ⟨e', he', hrip, hget, hflags, hcommit⟩ :=
      Instruction.exists_effect_jumpIf memory (state.withFlags (Alu.sub w a b).flags).advance hj hjo
    refine ⟨e', he', ?_, hget, hflags, hcommit⟩
    rw [hrip]
    have hflag : c.holds ((state.withFlags (Alu.sub w a b).flags).advance).flags =
        decide (c.Orders (w.signed a) (w.signed b)) := hholds c
    simp only [hflag, decide_eq_true_iff]
  · intro i j e' hi hio hj hjo he'
    exact Instruction.flags_of_effect_sub hi hio hj hjo he'

/-- The least 32-bit number is less than one, although their difference is positive. -/
theorem jump_after_least_dword :
    ∃ e e', (⟨.cmp, [.register ⟨.rax, .dword⟩, .immediate 1], 1⟩ : Instruction).effect
          (Memory.zeroed 0) (({} : State).set .rax 0x80000000) = .ok e ∧
      (⟨.jumpIf .less, [.label "less" 5], 2⟩ : Instruction).effect (Memory.zeroed 0) e.state =
        .ok e' ∧
      e.state.flags.sign = false ∧ e'.state.rip = 5 ∧
      ∃ e'', (⟨.sub, [.register ⟨.rax, .dword⟩, .immediate 1], 1⟩ : Instruction).effect
          (Memory.zeroed 0) (({} : State).set .rax 0x80000000) = .ok e'' ∧
        e.state.flags = e''.state.flags := by
  obtain ⟨hcmp, hsub⟩ := comparison_decides_jump (Memory.zeroed 0)
    (({} : State).set .rax 0x80000000) (.register ⟨.rax, .dword⟩) (.immediate 1)
  obtain ⟨e, he, hflags⟩ := hsub ⟨.cmp, [.register ⟨.rax, .dword⟩, .immediate 1], 1⟩
    ⟨.sub, [.register ⟨.rax, .dword⟩, .immediate 1], 1⟩ _ rfl rfl rfl rfl rfl
  obtain ⟨w, a, b, hw, ha, hb, -, hjump⟩ := hcmp _ e rfl rfl he
  obtain ⟨e', he', hrip, -⟩ := hjump .less ⟨.jumpIf .less, [.label "less" 5], 2⟩ "less" 5 rfl rfl
  cases hw
  cases ha
  cases hb
  cases he
  exact ⟨_, e', rfl, he', by decide, hrip.trans (if_pos (by decide)), _, rfl, hflags⟩

end X64
