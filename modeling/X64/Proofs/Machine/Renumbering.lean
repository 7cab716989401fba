import X64.Proofs.Machine.Extension

/-!
# Line numbers and runs

A run looks at the line of an instruction only to report it in an error. A machine whose program has
the same instructions on other lines takes the same steps (`step_renumber`), and so its runs end in
the same way (`runFrom_renumber`).
-/

namespace X64

/-- The instruction on another line. -/
def Instruction.renumber (f : Nat → Nat) (i : Instruction) : Instruction :=
  { i with line := f i.line }

/-- The same error on another line. -/
def MachineError.renumber (f : Nat → Nat) : MachineError → MachineError
  | .instruction line text error => .instruction (f line) text error
  | .syscall error => .syscall error
  | .stepLimit limit => .stepLimit limit

/-- The effect of an instruction does not depend on its line, and neither does an error. -/
theorem Instruction.effect_renumber (f : Nat → Nat) (i : Instruction) (memory : Memory)
    (state : State) : (i.renumber f).effect memory state = i.effect memory state := by
  obtain ⟨mnemonic, operands, line⟩ := i
  cases mnemonic <;> rfl

namespace Machine

variable {m : Machine} {q : Program} {past : Array TraceEntry} {f : Nat → Nat}

theorem perform_renumber (m : Machine) (i : Instruction) :
    m.perform (i.renumber f) = ((m.perform i).1, (m.perform i).2.mapError (.renumber f)) := by
  have hmnemonic : (i.renumber f).mnemonic = i.mnemonic := rfl
  unfold perform
  rw [hmnemonic, Instruction.effect_renumber]
  split
  · cases m.kernel.serve m.memory m.state <;> rfl
  · cases i.effect m.memory m.state <;> rfl

theorem current?_renumber (hq : q.instructions = m.program.instructions.map (.renumber f)) :
    (m.embed q past).current? = m.current?.map (.renumber f) := by
  unfold current?
  cases hexit : m.exitStatus with
  | some status => simp [embed, hexit]
  | none => simp [embed, hexit, hq]

theorem halted_renumber (hq : q.instructions = m.program.instructions.map (.renumber f)) :
    (m.embed q past).halted = m.halted := by
  rw [halted, halted, current?_renumber hq]
  cases m.current? <;> rfl

/-- A machine takes the same step when its program stands on other lines. -/
theorem step_renumber (hq : q.instructions = m.program.instructions.map (.renumber f)) :
    (m.embed q past).step = (m.step.1.embed q past, m.step.2.mapError (.renumber f)) := by
  rw [step, step, current?_renumber hq]
  cases m.current? with
  | none => rfl
  | some i =>
    simp only [Option.map_some, record_embed, perform_renumber, perform_embed]

theorem runFor_renumber (limit budget : Nat)
    (hq : q.instructions = m.program.instructions.map (.renumber f)) :
    runFor limit budget (m.embed q past) =
      ((runFor limit budget m).1.embed q past,
        (runFor limit budget m).2.mapError (.renumber f)) := by
  induction budget generalizing m with
  | zero =>
    rw [runFor, runFor, halted_renumber hq]
    cases m.halted <;> rfl
  | succ budget ih =>
    rw [runFor, runFor, halted_renumber hq, step_renumber hq]
    cases m.halted with
    | true => rfl
    | false =>
      have hprogram : m.step.1.program = m.program := sameSetting_step.1
      rcases hstep : m.step with ⟨v, e | _⟩
      · rfl
      · rw [hstep] at hprogram
        exact ih (hprogram.symm ▸ hq)

theorem embed_empty (m : Machine) (q : Program) : m.embed q #[] = { m with program := q } := by
  simp [embed]

theorem run_renumber (hq : q.instructions = m.program.instructions.map (.renumber f))
    (limit : Nat) :
    ({ m with program := q } : Machine).run limit =
      ({ (m.run limit).1 with program := q }, (m.run limit).2.mapError (.renumber f)) := by
  have hbudget : runFor limit (limit - m.steps) (m.embed q #[]) = _ :=
    runFor_renumber limit (limit - m.steps) hq
  rwa [embed_empty, embed_empty] at hbudget

/-- A run ends in the same way when the program stands on other lines. -/
theorem runFrom_renumber (hq : q.instructions = m.program.instructions.map (.renumber f))
    (entry limit : Nat) :
    ({ m with program := q } : Machine).runFrom entry limit =
      ({ (m.runFrom entry limit).1 with program := q },
        (m.runFrom entry limit).2.mapError (.renumber f)) := by
  have hentered : q.instructions =
      { m with state := m.state.jump entry }.program.instructions.map (.renumber f) := hq
  have hrun := run_renumber hentered limit
  unfold runFrom
  rw [hrun]
  rcases run { m with state := m.state.jump entry } limit with ⟨v, e | _⟩ <;> rfl

end Machine

end X64
