import X64.Proofs.Machine.Run

/-!
# Machines inside larger programs

A program that begins with the instructions of another one runs them in the same way. `embed` puts a
machine into a larger program and puts earlier steps in front of its trace; nothing else about the
machine changes.

* `step_embed` is the lock step: as long as the smaller program has not halted, both take the same
  step, with the same error if it fails.
* `after?_embed` follows from it for a whole sequence of steps, and `step_embed_error` for a failing
  step at its end.
-/

namespace X64

/-- The second program begins with the instructions of the first. -/
def Program.PrefixOf (p q : Program) : Prop :=
  ∀ (index : Nat) (i : Instruction),
    p.instructions[index]? = some i → q.instructions[index]? = some i

theorem Program.prefixOf_append {p q : Program} {is : Array Instruction}
    (h : q.instructions = p.instructions ++ is) : p.PrefixOf q := by
  intro index i hi
  obtain ⟨hlt, -⟩ := Array.getElem?_eq_some_iff.1 hi
  rw [h, Array.getElem?_append_left hlt]
  exact hi

namespace Machine

/-- The same machine with another program and with earlier steps in front of its trace. -/
def embed (m : Machine) (q : Program) (past : Array TraceEntry) : Machine :=
  { m with program := q, trace := past ++ m.trace }

variable {m v : Machine} {q : Program} {past : Array TraceEntry}

theorem record_embed : (m.embed q past).record = m.record.embed q past := by
  simp [embed, record]

theorem perform_embed (i : Instruction) :
    (m.embed q past).perform i = ((m.perform i).1.embed q past, (m.perform i).2) := by
  have hserve : (m.embed q past).kernel.serve (m.embed q past).memory (m.embed q past).state =
      m.kernel.serve m.memory m.state := rfl
  have heffect : i.effect (m.embed q past).memory (m.embed q past).state =
      i.effect m.memory m.state := rfl
  unfold perform
  split
  · rw [hserve]
    cases m.kernel.serve m.memory m.state with
    | error error => rfl
    | ok effect => cases effect <;> rfl
  · rw [heffect]
    cases i.effect m.memory m.state <;> rfl

/-- The program and the kernel of a machine never change. -/
def SameSetting (m v : Machine) : Prop := v.program = m.program ∧ v.kernel = m.kernel

theorem sameSetting_perform (i : Instruction) : m.SameSetting (m.perform i).1 := by
  unfold perform
  split
  · cases m.kernel.serve m.memory m.state with
    | error error => exact ⟨rfl, rfl⟩
    | ok effect => cases effect <;> exact ⟨rfl, rfl⟩
  · cases i.effect m.memory m.state <;> exact ⟨rfl, rfl⟩

theorem sameSetting_step : m.SameSetting m.step.1 := by
  unfold step
  split
  · exact ⟨rfl, rfl⟩
  · exact sameSetting_perform _

theorem current?_embed (hq : m.program.PrefixOf q) {i : Instruction} (h : m.current? = some i) :
    (m.embed q past).current? = some i := by
  unfold current? at h ⊢
  split at h
  · exact absurd h (by simp)
  · next hexit =>
    exact (if_neg hexit).trans (hq _ _ h)

theorem halted_embed (hq : m.program.PrefixOf q) (h : m.halted = false) :
    (m.embed q past).halted = false := by
  obtain ⟨i, hi⟩ := exists_current?_of_halted h
  rw [halted, current?_embed hq hi]
  rfl

/-- A machine and the same machine inside a larger program take the same step. -/
theorem step_embed (hq : m.program.PrefixOf q) (h : m.halted = false) :
    (m.embed q past).step = (m.step.1.embed q past, m.step.2) := by
  obtain ⟨i, hi⟩ := exists_current?_of_halted h
  rw [step, step, current?_embed hq hi, hi, record_embed]
  exact perform_embed i

theorem step_embed_error (hq : m.program.PrefixOf q) {e : MachineError}
    (h : m.step = (v, .error e)) : (m.embed q past).step = (v.embed q past, .error e) := by
  rw [step_embed hq (halted_of_step_error h), h]

theorem next?_embed (hq : m.program.PrefixOf q) (h : m.next? = some v) :
    (m.embed q past).next? = some (v.embed q past) := by
  obtain ⟨hm, hstep⟩ := next?_eq_some_iff.1 h
  rw [next?_eq_some_iff, step_embed hq hm, hstep]
  exact ⟨halted_embed hq hm, rfl⟩

theorem sameSetting_of_next? (h : m.next? = some v) : m.SameSetting v := by
  obtain ⟨-, hstep⟩ := next?_eq_some_iff.1 h
  have hsame : m.SameSetting m.step.1 := sameSetting_step
  rw [hstep] at hsame
  exact hsame

/-- A sequence of steps keeps the program and the kernel. -/
theorem sameSetting_of_after? {k : Nat} (h : m.after? k = some v) : m.SameSetting v := by
  induction k generalizing m with
  | zero =>
    obtain rfl : m = v := by simpa using h
    exact ⟨rfl, rfl⟩
  | succ k ih =>
    rw [after?] at h
    obtain ⟨u, hu, hv⟩ := Option.bind_eq_some_iff.1 h
    obtain ⟨hprogram, hkernel⟩ := sameSetting_of_next? hu
    obtain ⟨hprogram', hkernel'⟩ := ih hv
    exact ⟨hprogram'.trans hprogram, hkernel'.trans hkernel⟩

/-- A machine and the same machine inside a larger program take the same steps. -/
theorem after?_embed (hq : m.program.PrefixOf q) {k : Nat} (h : m.after? k = some v) :
    (m.embed q past).after? k = some (v.embed q past) := by
  induction k generalizing m with
  | zero =>
    obtain rfl : m = v := by simpa using h
    rfl
  | succ k ih =>
    rw [after?] at h ⊢
    obtain ⟨u, hu, hv⟩ := Option.bind_eq_some_iff.1 h
    rw [next?_embed hq hu]
    exact ih ((sameSetting_of_next? hu).1 ▸ hq) hv

end Machine

end X64
