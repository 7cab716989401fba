import X64.Proofs.Effect
import X64.Machine

/-!
# Runs as iterated steps

`Machine.run` checks for a halt, then for the limit, and then takes a step, until one of the three
ends the run. This module relates it to the machines `m.after? j`, which one reaches by `j`
successful steps, each from a machine that has not halted.

* `next?_cases` says what a successful step does. `step_error` says what a failing step leaves
  behind, and `step_eq_instruction_error_iff` why the step of an instruction fails.
* `after?_succ` and `after?_add` cut such a sequence of steps, and `steps_of_after?` counts it.
* `runFor_of_halted`, `runFor_of_error` and `runFor_of_limit` follow a sequence of steps to the end
  of a run, and `runFor_cases` says that there is no other end.
* `run_eq_ok_iff`, `run_eq_error_iff` and `run_eq_limit_iff` are the same about `run`, whose budget
  is what the limit leaves after the steps that the machine has already taken.
* `run_run` joins two runs with growing limits.
-/

namespace X64

/-- Whether an error comes from a step, and not from the limit of a run. -/
def MachineError.ofStep : MachineError → Bool
  | .instruction .. | .syscall _ => true
  | .stepLimit _ => false

namespace Machine

/-! ## One step -/

/-- The machine after a successful step. There is none if the machine has halted or if the step
fails. -/
def next? (m : Machine) : Option Machine :=
  if m.halted then none
  else
    match m.step with
    | (m', .ok ()) => some m'
    | (_, .error _) => none

theorem next?_eq_some_iff {m v : Machine} :
    m.next? = some v ↔ m.halted = false ∧ m.step = (v, .ok ()) := by
  unfold next?
  cases hm : m.halted with
  | true => simp
  | false =>
    obtain ⟨v', r⟩ := m.step
    cases r <;> simp

/-- A halted machine is left as it is by a step. -/
theorem step_of_halted {m : Machine} (h : m.halted = true) : m.step = (m, .ok ()) := by
  have hnone : m.current? = none := by
    simpa [halted] using h
  rw [step, hnone]

/-- A machine whose step fails has not halted. -/
theorem halted_of_step_error {m v : Machine} {e : MachineError} (h : m.step = (v, .error e)) :
    m.halted = false := by
  cases hm : m.halted with
  | false => rfl
  | true =>
    rw [step_of_halted hm] at h
    simp at h

theorem current?_eq {m : Machine} (hexit : m.exitStatus = none) {index : Nat}
    (hrip : m.state.rip = UInt64.ofNat index) (hindex : index < UInt64.size) :
    m.current? = m.program.instructions[index]? := by
  rw [current?, hexit, hrip, UInt64.toNat_ofNat_of_lt' hindex]
  rfl

theorem exists_current?_of_halted {m : Machine} (h : m.halted = false) :
    ∃ i, m.current? = some i := by
  rw [← Option.isSome_iff_exists, ← Option.not_isNone]
  simpa [halted] using h

/-- Running an instruction leaves the trace as it is. -/
theorem trace_perform (m : Machine) (i : Instruction) : (m.perform i).1.trace = m.trace := by
  unfold perform
  split
  · cases m.kernel.serve m.memory m.state with
    | ok effect => cases effect <;> rfl
    | error error => rfl
  · cases i.effect m.memory m.state <;> rfl

/-- A step counts, whether it fails or not. -/
theorem steps_step {m : Machine} (h : m.halted = false) : m.step.1.steps = m.steps + 1 := by
  obtain ⟨i, hi⟩ := exists_current?_of_halted h
  simp only [step, hi, steps, trace_perform, record, Array.size_push]

/-- The step of an ordinary instruction that has an effect. -/
theorem next?_of_effect {m : Machine} {i : Instruction} {e : Effect} (hi : m.current? = some i)
    (hm : i.mnemonic ≠ .syscall) (he : i.effect m.memory m.state = .ok e) :
    m.next? = some (m.record.applyEffect e) := by
  rw [next?_eq_some_iff, halted, step, hi]
  refine ⟨rfl, ?_⟩
  simp only [perform, if_neg hm, record, he]

/-- The step that puts a value into a whole register. -/
theorem next?_mov {m : Machine} {i : Instruction} {r : Register} {src : Operand} {value : UInt64}
    (hi : m.current? = some i) (hm : i.mnemonic = .mov)
    (ho : i.operands = [.register ⟨r, .qword⟩, src])
    (hw : i.commonWidth (.register ⟨r, .qword⟩) src = .ok .qword)
    (hread : src.read m.memory m.state .qword = .ok value) :
    m.next? = some { m.record with state := (m.state.set r value).advance } := by
  have heffect := Instruction.effect_mov hm ho rfl hw hread rfl
  exact next?_of_effect hi (by simp [hm]) heffect

/-- The step of a system call that is served. -/
theorem next?_of_serve {m : Machine} {i : Instruction} {e : SyscallEffect}
    (hi : m.current? = some i) (hm : i.mnemonic = .syscall)
    (he : m.kernel.serve m.memory m.state = .ok e) :
    m.next? = some (m.record.applySyscall e) := by
  rw [next?_eq_some_iff, halted, step, hi]
  refine ⟨rfl, ?_⟩
  simp only [perform, if_pos hm, record, he]

/-- What a successful step does: a system call is served, or an instruction has an effect. -/
theorem next?_cases {m v : Machine} (h : m.next? = some v) :
    ∃ i, m.current? = some i ∧
      ((i.mnemonic = .syscall ∧ ∃ e, m.kernel.serve m.memory m.state = .ok e ∧
          v = m.record.applySyscall e) ∨
        i.mnemonic ≠ .syscall ∧ ∃ e, i.effect m.memory m.state = .ok e ∧
          v = m.record.applyEffect e) := by
  obtain ⟨hm, hstep⟩ := next?_eq_some_iff.1 h
  obtain ⟨i, hi⟩ := exists_current?_of_halted hm
  rw [step, hi] at hstep
  refine ⟨i, hi, ?_⟩
  by_cases hsyscall : i.mnemonic = .syscall
  · simp only [perform, if_pos hsyscall, record] at hstep
    cases hserve : m.kernel.serve m.memory m.state with
    | error error =>
      rw [hserve] at hstep
      cases hstep
    | ok e =>
      rw [hserve] at hstep
      cases hstep
      exact Or.inl ⟨hsyscall, e, rfl, rfl⟩
  · simp only [perform, if_neg hsyscall, record] at hstep
    cases heffect : i.effect m.memory m.state with
    | error error =>
      rw [heffect] at hstep
      cases hstep
    | ok e =>
      rw [heffect] at hstep
      cases hstep
      exact Or.inr ⟨hsyscall, e, rfl, rfl⟩

/-- The error of a step is never the limit of a run. -/
theorem ofStep_of_step_error {m v : Machine} {e : MachineError} (h : m.step = (v, .error e)) :
    e.ofStep = true := by
  unfold step at h
  split at h
  · simp at h
  · unfold perform at h
    split at h <;> split at h <;> simp only [Prod.mk.injEq, Except.error.injEq, reduceCtorEq,
      and_false] at h
    all_goals
      obtain ⟨-, rfl⟩ := h
      rfl

theorem perform_error {m v : Machine} {i : Instruction} {e : MachineError}
    (h : m.perform i = (v, .error e)) : v = m ∧ m.record.perform i = (m.record, .error e) := by
  unfold perform at h ⊢
  split at h
  · next hm =>
    rw [if_pos hm]
    simp only [record]
    cases hserve : m.kernel.serve m.memory m.state with
    | error error =>
      rw [hserve] at h
      cases h
      exact ⟨rfl, rfl⟩
    | ok effect =>
      rw [hserve] at h
      cases h
  · next hm =>
    rw [if_neg hm]
    simp only [record]
    cases heffect : i.effect m.memory m.state with
    | error error =>
      rw [heffect] at h
      cases h
      exact ⟨rfl, rfl⟩
    | ok effect =>
      rw [heffect] at h
      cases h

/-- A step fails with the error of an instruction if the next instruction has no effect. -/
theorem step_eq_instruction_error_iff {m v : Machine} {line : Nat} {text : String}
    {e : ExecutionError} :
    m.step = (v, .error (.instruction line text e)) ↔
      ∃ i, m.current? = some i ∧ i.mnemonic ≠ .syscall ∧ i.effect m.memory m.state = .error e ∧
        line = i.line ∧ text = i.render ∧ v = m.record := by
  unfold step
  cases m.current? with
  | none => simp
  | some i =>
    simp only [Option.some.injEq, exists_eq_left', perform]
    split
    · next hm =>
      simp only [hm, ne_eq, not_true_eq_false, false_and, iff_false]
      split <;> simp
    · next hm =>
      have heffect : i.effect m.record.memory m.record.state = i.effect m.memory m.state := rfl
      rw [heffect]
      cases i.effect m.memory m.state with
      | ok effect => simp
      | error error =>
        simp only [Prod.mk.injEq, Except.error.injEq, MachineError.instruction.injEq]
        constructor
        · rintro ⟨rfl, rfl, rfl, rfl⟩
          exact ⟨hm, rfl, rfl, rfl, rfl⟩
        · rintro ⟨-, rfl, rfl, rfl, rfl⟩
          exact ⟨rfl, rfl, rfl, rfl⟩

/-- A failing step adds to the trace and changes nothing else, and so it fails again. -/
theorem step_error {m v : Machine} {e : MachineError} (h : m.step = (v, .error e)) :
    v = m.record ∧ v.step = (v.record, .error e) := by
  obtain ⟨i, hi⟩ := exists_current?_of_halted (halted_of_step_error h)
  rw [step, hi] at h
  obtain ⟨rfl, hagain⟩ := perform_error h
  have hi' : m.record.current? = some i := hi
  rw [step, hi']
  exact ⟨rfl, hagain⟩

/-! ## Sequences of steps -/

/-- The machine after `n` successful steps, each taken from a machine that has not halted. -/
def after? : Nat → Machine → Option Machine
  | 0, m => some m
  | n + 1, m => m.next?.bind (after? n)

@[simp] theorem after?_zero (m : Machine) : m.after? 0 = some m := rfl

theorem after?_one (m : Machine) : m.after? 1 = m.next? := by
  simp [after?]

/-- A sequence of steps falls into two parts. -/
theorem after?_add (j k : Nat) (m : Machine) :
    m.after? (j + k) = (m.after? j).bind (after? k) := by
  induction j generalizing m with
  | zero => simp
  | succ j ih =>
    rw [Nat.add_right_comm, after?, after?]
    cases m.next? with
    | none => rfl
    | some v => exact ih v

/-- The last step of a sequence. -/
theorem after?_succ (j : Nat) (m : Machine) : m.after? (j + 1) = (m.after? j).bind next? := by
  rw [after?_add]
  exact congrArg _ (funext after?_one)

theorem after?_trans {m v u : Machine} {j k : Nat} (hv : m.after? j = some v)
    (hu : v.after? k = some u) : m.after? (j + k) = some u := by
  rw [after?_add, hv]
  exact hu

/-- Every machine on the way to another one is there, and has not halted. -/
theorem exists_after?_of_lt {m v : Machine} {j k : Nat} (hv : m.after? k = some v) (hlt : j < k) :
    ∃ u, m.after? j = some u ∧ u.halted = false := by
  obtain ⟨d, rfl⟩ : ∃ d, k = j + (d + 1) := ⟨k - j - 1, by omega⟩
  rw [after?_add] at hv
  obtain ⟨u, hu, hrest⟩ := Option.bind_eq_some_iff.1 hv
  rw [after?] at hrest
  obtain ⟨w, hw, -⟩ := Option.bind_eq_some_iff.1 hrest
  exact ⟨u, hu, (next?_eq_some_iff.1 hw).1⟩

/-- A machine on the way that has not halted lies before every machine that has. -/
theorem exists_after?_of_halted {m v u : Machine} {j k : Nat} (hv : m.after? j = some v)
    (hgoing : v.halted = false) (hu : m.after? k = some u) (hhalted : u.halted = true) :
    ∃ d, k = j + (d + 1) ∧ v.after? (d + 1) = some u := by
  have hlt : j < k := by
    rcases Nat.lt_trichotomy j k with hlt | rfl | hgt
    · exact hlt
    · obtain rfl : v = u := Option.some.inj (hv.symm.trans hu)
      exact absurd (hgoing.symm.trans hhalted) (by decide)
    · obtain ⟨u', hu', hgoing'⟩ := exists_after?_of_lt hv hgt
      obtain rfl : u' = u := Option.some.inj (hu'.symm.trans hu)
      exact absurd (hgoing'.symm.trans hhalted) (by decide)
  obtain ⟨d, rfl⟩ : ∃ d, k = j + (d + 1) := ⟨k - j - 1, by omega⟩
  rw [after?_add, hv] at hu
  exact ⟨d, rfl, hu⟩

/-- The steps of a sequence are all counted. -/
theorem steps_of_after? {m v : Machine} {j : Nat} (h : m.after? j = some v) :
    v.steps = m.steps + j := by
  induction j generalizing m with
  | zero =>
    obtain rfl : m = v := by simpa using h
    rfl
  | succ j ih =>
    rw [after?] at h
    obtain ⟨u, hu, hv⟩ := Option.bind_eq_some_iff.1 h
    obtain ⟨hm, hstep⟩ := next?_eq_some_iff.1 hu
    have hsteps := steps_step hm
    rw [hstep] at hsteps
    rw [ih hv, hsteps]
    omega

/-! ## Runs with a budget -/

/-- A run over a sequence of steps goes on from its last machine with the budget that is left. -/
theorem runFor_add (limit : Nat) {m v : Machine} {j : Nat} (budget : Nat)
    (h : m.after? j = some v) : runFor limit (j + budget) m = runFor limit budget v := by
  induction j generalizing m with
  | zero =>
    obtain rfl : m = v := by simpa using h
    rw [Nat.zero_add]
  | succ j ih =>
    rw [after?] at h
    obtain ⟨u, hu, hv⟩ := Option.bind_eq_some_iff.1 h
    obtain ⟨hm, hstep⟩ := next?_eq_some_iff.1 hu
    rw [Nat.add_right_comm, runFor, hm, hstep]
    exact ih hv

/-- A run ends at a halted machine that is in reach. -/
theorem runFor_of_halted (limit : Nat) {m v : Machine} {j budget : Nat}
    (h : m.after? j = some v) (hv : v.halted = true) (hj : j ≤ budget) :
    runFor limit budget m = (v, .ok ()) := by
  obtain ⟨d, rfl⟩ : ∃ d, budget = j + d := ⟨budget - j, by omega⟩
  rw [runFor_add limit d h]
  cases d <;> simp [runFor, hv]

/-- A run ends with a failing step that is in reach. -/
theorem runFor_of_error (limit : Nat) {m v u : Machine} {e : MachineError} {j budget : Nat}
    (h : m.after? j = some u) (hstep : u.step = (v, .error e)) (hj : j < budget) :
    runFor limit budget m = (v, .error e) := by
  obtain ⟨d, rfl⟩ : ∃ d, budget = j + (d + 1) := ⟨budget - j - 1, by omega⟩
  rw [runFor_add limit (d + 1) h, runFor, halted_of_step_error hstep, hstep]
  rfl

/-- A run ends with the limit at a machine that has not halted when the budget is spent. -/
theorem runFor_of_limit (limit : Nat) {m v : Machine} {budget : Nat}
    (h : m.after? budget = some v) (hv : v.halted = false) :
    runFor limit budget m = (v, .error (.stepLimit limit)) := by
  rw [← Nat.add_zero budget, runFor_add limit 0 h, runFor, hv]
  rfl

/-- The three ends of a run: a halt, a failing step, or the limit. -/
theorem runFor_cases (budget : Nat) (m : Machine) :
    (∃ j v, m.after? j = some v ∧ v.halted = true ∧ j ≤ budget) ∨
      (∃ j u v e, m.after? j = some u ∧ u.step = (v, .error e) ∧ j < budget) ∨
      ∃ v, m.after? budget = some v ∧ v.halted = false := by
  induction budget generalizing m with
  | zero =>
    cases hm : m.halted with
    | true => exact Or.inl ⟨0, m, rfl, hm, Nat.le_refl 0⟩
    | false => exact Or.inr (Or.inr ⟨m, rfl, hm⟩)
  | succ budget ih =>
    cases hm : m.halted with
    | true => exact Or.inl ⟨0, m, rfl, hm, Nat.zero_le _⟩
    | false =>
      rcases hstep : m.step with ⟨u, r⟩
      cases r with
      | error e => exact Or.inr (Or.inl ⟨0, m, u, e, rfl, hstep, Nat.succ_pos _⟩)
      | ok =>
        have hu : m.after? 1 = some u := by
          rw [after?_one]
          exact next?_eq_some_iff.2 ⟨hm, hstep⟩
        rcases ih u with ⟨j, v, hj, hv, hle⟩ | ⟨j, w, v, e, hj, hw, hlt⟩ | ⟨v, hj, hv⟩
        · exact Or.inl ⟨1 + j, v, after?_trans hu hj, hv, by omega⟩
        · exact Or.inr (Or.inl ⟨1 + j, w, v, e, after?_trans hu hj, hw, by omega⟩)
        · refine Or.inr (Or.inr ⟨v, ?_, hv⟩)
          rw [Nat.add_comm]
          exact after?_trans hu hj

/-! ## Runs with a limit -/

/-- The first halted machine that one reaches from `m` is `v`, and the limit allows the steps to
it. -/
def HaltsWithin (m : Machine) (limit : Nat) (v : Machine) : Prop :=
  ∃ j, m.after? j = some v ∧ v.halted = true ∧ (j = 0 ∨ m.steps + j ≤ limit)

/-- The first failing step after `m` leaves `v` and gives the error `e`, and the limit allows it. -/
def FailsWithin (m : Machine) (limit : Nat) (v : Machine) (e : MachineError) : Prop :=
  ∃ j u, m.after? j = some u ∧ u.step = (v, .error e) ∧ m.steps + j < limit

/-- The steps from `m` to `v` use up the limit, and `v` has not halted. -/
def SpendsLimit (m : Machine) (limit : Nat) (v : Machine) : Prop :=
  ∃ j, m.after? j = some v ∧ v.halted = false ∧ m.steps + j = max limit m.steps

theorem HaltsWithin.run_eq {m v : Machine} {limit : Nat} (h : m.HaltsWithin limit v) :
    m.run limit = (v, .ok ()) := by
  obtain ⟨j, hj, hv, hle⟩ := h
  exact runFor_of_halted limit hj hv (by omega)

theorem FailsWithin.run_eq {m v : Machine} {limit : Nat} {e : MachineError}
    (h : m.FailsWithin limit v e) : m.run limit = (v, .error e) := by
  obtain ⟨j, u, hj, hstep, hlt⟩ := h
  exact runFor_of_error limit hj hstep (by omega)

theorem SpendsLimit.run_eq {m v : Machine} {limit : Nat} (h : m.SpendsLimit limit v) :
    m.run limit = (v, .error (.stepLimit limit)) := by
  obtain ⟨j, hj, hv, heq⟩ := h
  have hbudget : j = limit - m.steps := by omega
  subst hbudget
  exact runFor_of_limit limit hj hv

/-- Every run ends in one of three ways. -/
theorem run_cases (m : Machine) (limit : Nat) :
    (∃ v, m.HaltsWithin limit v) ∨ (∃ v e, m.FailsWithin limit v e) ∨
      ∃ v, m.SpendsLimit limit v := by
  rcases runFor_cases (limit - m.steps) m with
    ⟨j, v, hj, hv, hle⟩ | ⟨j, u, v, e, hj, hstep, hlt⟩ | ⟨v, hj, hv⟩
  · exact Or.inl ⟨v, j, hj, hv, by omega⟩
  · exact Or.inr (Or.inl ⟨v, e, j, u, hj, hstep, by omega⟩)
  · exact Or.inr (Or.inr ⟨v, _, hj, hv, by omega⟩)

theorem FailsWithin.ofStep {m v : Machine} {limit : Nat} {e : MachineError}
    (h : m.FailsWithin limit v e) : e.ofStep = true := by
  obtain ⟨_, _, _, hstep, _⟩ := h
  exact ofStep_of_step_error hstep

theorem run_eq_ok_iff {m v : Machine} {limit : Nat} :
    m.run limit = (v, .ok ()) ↔ m.HaltsWithin limit v := by
  refine ⟨fun hrun => ?_, HaltsWithin.run_eq⟩
  rcases m.run_cases limit with ⟨u, hu⟩ | ⟨u, e, hu⟩ | ⟨u, hu⟩
  · obtain rfl : u = v := congrArg Prod.fst (hu.run_eq.symm.trans hrun)
    exact hu
  · simp [hu.run_eq] at hrun
  · simp [hu.run_eq] at hrun

theorem run_eq_error_iff {m v : Machine} {limit : Nat} {e : MachineError} :
    m.run limit = (v, .error e) ∧ e.ofStep = true ↔ m.FailsWithin limit v e := by
  refine ⟨fun ⟨hrun, he⟩ => ?_, fun h => ⟨h.run_eq, h.ofStep⟩⟩
  rcases m.run_cases limit with ⟨u, hu⟩ | ⟨u, e', hu⟩ | ⟨u, hu⟩
  · simp [hu.run_eq] at hrun
  · obtain ⟨rfl, rfl⟩ : u = v ∧ e' = e := by simpa [hu.run_eq] using hrun
    exact hu
  · obtain ⟨-, rfl⟩ : u = v ∧ MachineError.stepLimit limit = e := by
      simpa [hu.run_eq] using hrun
    simp [MachineError.ofStep] at he

theorem run_eq_limit_iff {m v : Machine} {limit : Nat} :
    m.run limit = (v, .error (.stepLimit limit)) ↔ m.SpendsLimit limit v := by
  refine ⟨fun hrun => ?_, SpendsLimit.run_eq⟩
  rcases m.run_cases limit with ⟨u, hu⟩ | ⟨u, e, hu⟩ | ⟨u, hu⟩
  · simp [hu.run_eq] at hrun
  · obtain ⟨-, rfl⟩ : u = v ∧ e = .stepLimit limit := by simpa [hu.run_eq] using hrun
    have he := hu.ofStep
    simp [MachineError.ofStep] at he
  · obtain rfl : u = v := congrArg Prod.fst (hu.run_eq.symm.trans hrun)
    exact hu

/-! ## Runs one after the other -/

theorem HaltsWithin.mono {m v : Machine} {limit limit' : Nat} (h : m.HaltsWithin limit v)
    (hle : limit ≤ limit') : m.HaltsWithin limit' v := by
  obtain ⟨j, hj, hv, hor⟩ := h
  exact ⟨j, hj, hv, by omega⟩

theorem FailsWithin.mono {m v : Machine} {limit limit' : Nat} {e : MachineError}
    (h : m.FailsWithin limit v e) (hle : limit ≤ limit') : m.FailsWithin limit' v e := by
  obtain ⟨j, u, hj, hstep, hlt⟩ := h
  exact ⟨j, u, hj, hstep, by omega⟩

/-- A halted machine is left as it is by a run. -/
theorem run_of_halted {m : Machine} (limit : Nat) (h : m.halted = true) :
    m.run limit = (m, .ok ()) :=
  HaltsWithin.run_eq ⟨0, rfl, h, Or.inl rfl⟩

/-- A run over a sequence of steps within the limit goes on from its last machine. -/
theorem run_of_after? {m v : Machine} {j limit : Nat} (h : m.after? j = some v)
    (hj : j = 0 ∨ m.steps + j ≤ limit) : m.run limit = v.run limit := by
  have hsteps := steps_of_after? h
  have hbudget : limit - m.steps = j + (limit - v.steps) := by omega
  rw [run, run, hbudget, runFor_add limit _ h]

/-- A run that no step has made fail is taken up again by a run with at least its limit. -/
theorem run_run {m : Machine} {limit limit' : Nat} (hle : limit ≤ limit')
    (h : ∀ e, (m.run limit).2 = .error e → e.ofStep = false) :
    (m.run limit).1.run limit' = m.run limit' := by
  rcases m.run_cases limit with ⟨v, hv⟩ | ⟨v, e, hv⟩ | ⟨v, hv⟩
  · have hhalted : v.halted = true := by
      obtain ⟨_, _, hhalted, _⟩ := hv
      exact hhalted
    rw [hv.run_eq, (hv.mono hle).run_eq]
    exact run_of_halted limit' hhalted
  · have he := h e (by rw [hv.run_eq])
    rw [hv.ofStep] at he
    exact absurd he (by decide)
  · rw [hv.run_eq]
    obtain ⟨j, hj, -, heq⟩ := hv
    exact (run_of_after? hj (by omega)).symm

/-- A run is bounded iteration of `step`. It ends well at the first halted machine if the limit
allows the steps to it, it ends with the first failing step if the limit allows that one, and in
every other case it stops with the limit where the steps have used it up. So a run that no step has
made fail may be taken up again with a larger limit, and a failing run fails in the same way under
every larger limit. -/
theorem run_iff_iterated_step (m : Machine) (limit : Nat) :
    (∀ v, m.run limit = (v, .ok ()) ↔ m.HaltsWithin limit v) ∧
      (∀ v e, m.run limit = (v, .error e) ∧ e.ofStep = true ↔ m.FailsWithin limit v e) ∧
      ((∀ v, ¬m.HaltsWithin limit v) → (∀ v e, ¬m.FailsWithin limit v e) →
        ∃ v, m.SpendsLimit limit v ∧ m.run limit = (v, .error (.stepLimit limit))) ∧
      (∀ limit', limit ≤ limit' → (∀ e, (m.run limit).2 = .error e → e.ofStep = false) →
        (m.run limit).1.run limit' = m.run limit') ∧
      (∀ limit', limit ≤ limit' → ∀ v e, m.run limit = (v, .error e) → e.ofStep = true →
        m.run limit' = (v, .error e)) ∧
      (m.halted = true → m.step = (m, .ok ()) ∧ m.run limit = (m, .ok ())) := by
  refine ⟨fun v => run_eq_ok_iff, fun v e => run_eq_error_iff, ?_, ?_, ?_, ?_⟩
  · intro hhalts hfails
    rcases m.run_cases limit with ⟨v, hv⟩ | ⟨v, e, hv⟩ | ⟨v, hv⟩
    · exact absurd hv (hhalts v)
    · exact absurd hv (hfails v e)
    · exact ⟨v, hv, hv.run_eq⟩
  · intro limit' hle h
    exact run_run hle h
  · intro limit' hle v e hrun he
    have hfails : m.FailsWithin limit v e := run_eq_error_iff.1 ⟨hrun, he⟩
    exact (hfails.mono hle).run_eq
  · intro hhalted
    exact ⟨step_of_halted hhalted, run_of_halted limit hhalted⟩

/-- A machine without memory that is about to run `nop`, and then `ret`, which finds no stack. -/
def stackless : Machine :=
  boot { instructions := #[⟨.nop, [], 1⟩, ⟨.ret, [], 2⟩] } .linux 0

/-- The second step of `stackless` fails, and a limit of one step stops the run before it. -/
theorem run_stackless :
    (stackless.run 1).2 = .error (.stepLimit 1) ∧ (stackless.run 1).1.steps = 1 ∧
      (stackless.run 1).1.run 2 = stackless.run 2 ∧
      (stackless.run 2).2 =
        .error (.instruction 2 "ret" (.memory { address := 0, length := 8, size := 0 })) ∧
      stackless.run 5 = stackless.run 2 := by
  have hlimit : (stackless.run 1).2 = .error (.stepLimit 1) := rfl
  have hfails : (stackless.run 2).2 =
      .error (.instruction 2 "ret" (.memory { address := 0, length := 8, size := 0 })) := rfl
  refine ⟨hlimit, rfl, ?_, hfails, ?_⟩
  · refine (run_iff_iterated_step stackless 1).2.2.2.1 2 (by decide) fun e he => ?_
    rw [hlimit] at he
    cases he
    rfl
  · have hrun : stackless.run 2 = ((stackless.run 2).1, _) := Prod.ext rfl hfails
    rw [hrun]
    exact (run_iff_iterated_step stackless 2).2.2.2.2.1 5 (by decide) _ _ hrun rfl

end Machine

end X64
