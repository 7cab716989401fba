import X64.Proofs.Launch.Completion
import X64.Proofs.Machine.Extension

/-!
# The start routine as a caller

The start routine calls a label, and it exits with what the call leaves in `rax`. So a launch can be
followed in the program of the source alone, without the routine: `Program.called` is the machine
for that program right after the call.

* `next?_call` is the first step of the routine. It leads to `Program.called` inside the completed
  program, and `after?_embed` takes over from there.
* `after?_exit` is the rest of the routine: three steps from the instruction behind the call to the
  exit.
-/

namespace X64

/-- The machine for a program right after the start routine behind it has called an index. The stack
holds the index of the instruction that follows the call. -/
def Program.called (p : Program) (options : LaunchOptions) (target : Nat) : Machine :=
  let m := Machine.boot p options.kernel options.memorySize
  let rsp := UInt64.ofNat (options.memorySize - 8)
  { m with
    memory := m.memory.store rsp (bytesOfWord 8 (UInt64.ofNat (p.size + 1)))
    state := (m.state.set .rsp rsp).jump target }

/-- The trace of a machine that has taken the call of the start routine behind a program. -/
def Program.callTrace (p : Program) (options : LaunchOptions) : Array TraceEntry :=
  #[⟨UInt64.ofNat p.size, UInt64.ofNat options.memorySize⟩]

theorem Program.getElem?_size_add {p q : Program} {is : List Instruction}
    (hq : q.instructions = p.instructions ++ is.toArray) (j : Nat) :
    q.instructions[p.size + j]? = is[j]? := by
  rw [hq, Array.getElem?_append_right (Nat.le_add_right p.size j)]
  simp [Program.size]

namespace Machine

variable {m : Machine} {p q : Program} {options : LaunchOptions}

/-- The call of the start routine. -/
theorem next?_call {label : String} {target line : Nat}
    (hcall : q.instructions[p.size]? = some ⟨.call, [.label label target], line⟩)
    (hsize : p.size < UInt64.size) (hmemory : 8 ≤ options.memorySize) :
    (q.machineAt options p.size).next? =
      some ((p.called options target).embed q (p.callTrace options)) := by
  have hcurrent : (q.machineAt options p.size).current? =
      some ⟨.call, [.label label target], line⟩ :=
    (current?_eq rfl (q.rip_machineAt options p.size) hsize).trans hcall
  have hrsp : (q.machineAt options p.size).state.rsp - slotSize =
      UInt64.ofNat (options.memorySize - 8) := by
    rw [q.rsp_machineAt, UInt64.ofNat_sub hmemory]
    rfl
  have hrip : (q.machineAt options p.size).state.rip + 1 = UInt64.ofNat (p.size + 1) := by
    rw [q.rip_machineAt, UInt64.ofNat_add]
    rfl
  have hroom : (q.machineAt options p.size).memory.InBounds
      ((q.machineAt options p.size).state.rsp - slotSize) Width.qword.bytes := by
    have hle : (UInt64.ofNat (options.memorySize - 8)).toNat ≤ options.memorySize - 8 := by
      rw [UInt64.toNat_ofNat']
      exact Nat.mod_le _ _
    rw [hrsp, Memory.InBounds, q.size_memory_machineAt]
    show _ + 8 ≤ _
    omega
  have heffect := Instruction.effect_call (i := ⟨.call, [.label label target], line⟩) rfl rfl hroom
  rw [next?_of_effect hcurrent (show Mnemonic.call ≠ .syscall by decide) heffect, hrsp, hrip]
  have hstate := State.jump_set_jump (Machine.boot q options.kernel options.memorySize).state .rsp
    (UInt64.ofNat (options.memorySize - 8)) p.size target
  have htrace : (q.machineAt options p.size).record.trace = p.callTrace options := by
    rw [record, q.rip_machineAt, q.rsp_machineAt]
    rfl
  rw [applyEffect, htrace]
  simp only [record, embed, Program.called, Program.machineAt, Effect.commit]
  rw [hstate]
  rfl

/-- The part of the start routine behind the call. -/
theorem after?_exit {label : String} {target n : Nat}
    (hq : q.instructions =
      p.instructions ++ (options.kernel.startInstructions label target n).toArray)
    (hprogram : m.program = q) (hkernel : m.kernel = options.kernel) (hexit : m.exitStatus = none)
    (hrip : m.state.rip = UInt64.ofNat (p.size + 1)) (hsize : p.size + 4 ≤ UInt64.size) :
    ∃ v, m.after? 3 = some v ∧ v.exitStatus = some (m.state.get .rax) ∧ v.output = m.output ∧
      v.memory = m.memory := by
  have hnumber : (options.kernel.number .exit).toInt64.toUInt64 = options.kernel.number .exit := by
    cases options.kernel <;> rfl
  -- The machines on the way differ from `m` in their registers and their traces only.
  have hcurrent : ∀ j < 3, ∀ u : Machine, u.program = m.program → u.exitStatus = none →
      u.state.rip = UInt64.ofNat (p.size + 1 + j) →
        u.current? = (options.kernel.startInstructions label target n)[1 + j]? := by
    intro j hj u hu hu' hrip'
    rw [current?_eq hu' hrip' (by omega), hu, hprogram, Nat.add_assoc]
    exact Program.getElem?_size_add hq (1 + j)
  have h₁ := next?_mov (hcurrent 0 (by decide) m rfl hexit hrip) rfl rfl rfl
    (Operand.read_register .rax)
  have hrip₁ := State.rip_advance_set hrip (show Register.rdi ≠ .rip by decide)
    (m.state.get .rax)
  generalize hs₁ : (m.state.set .rdi (m.state.get .rax)).advance = s₁ at h₁ hrip₁
  have h₂ := next?_mov (hcurrent 1 (by decide) { m.record with state := s₁ } rfl hexit hrip₁) rfl
    rfl rfl rfl
  have hrip₂ := State.rip_advance_set hrip₁ (show Register.rax ≠ .rip by decide)
    (Width.qword.truncate (options.kernel.number .exit).toInt64.toUInt64)
  generalize hs₂ : (s₁.set .rax _).advance = s₂ at h₂ hrip₂
  have hrax : s₂.get .rax = options.kernel.number .exit := by
    rw [← hs₂, State.get_advance_of_ne _ (by decide), State.get_set_self, Width.truncate_qword,
      hnumber]
  have hrdi : s₂.get .rdi = m.state.get .rax := by
    rw [← hs₂, State.get_advance_of_ne _ (by decide), State.get_set_of_ne _ (by decide), ← hs₁,
      State.get_advance_of_ne _ (by decide), State.get_set_self]
  have hserve : m.kernel.serve m.memory s₂ = .ok (.exit (m.state.get .rax)) := by
    rw [Kernel.serve, hrax, hkernel, Kernel.syscall?_number, hrdi]
  have h₃ := next?_of_serve
    (hcurrent 2 (by decide) { (Machine.record { m.record with state := s₁ }) with state := s₂ }
      rfl hexit hrip₂) rfl hserve
  rw [← after?_one] at h₁ h₂ h₃
  exact ⟨_, after?_trans (after?_trans h₁ h₂) h₃, rfl, rfl, rfl⟩

end Machine

section

variable {source : String} {options : LaunchOptions} {p q : Program} {label : String} {target : Nat}

/-- The machine of a completed program takes the call of the start routine, and then the steps of
the program without the routine. -/
theorem after?_machineAt_eq {n k : Nat} {v : Machine}
    (hq : q.instructions =
      p.instructions ++ (options.kernel.startInstructions label target n).toArray)
    (hmemory : 8 ≤ options.memorySize) (hsize : p.size < UInt64.size)
    (hrun : (p.called options target).after? k = some v) :
    (q.machineAt options p.size).after? (1 + k) = some (v.embed q (p.callTrace options)) := by
  have hcall : (q.machineAt options p.size).after? 1 =
      some ((p.called options target).embed q (p.callTrace options)) := by
    rw [Machine.after?_one]
    exact Machine.next?_call (Program.getElem?_size_add hq 0) hsize hmemory
  have hprefix : p.PrefixOf q := Program.prefixOf_append hq
  exact Machine.after?_trans hcall (Machine.after?_embed hprefix hrun)

theorem after?_machineAt {n k : Nat} {v : Machine}
    (hq : q.instructions =
      p.instructions ++ (options.kernel.startInstructions label target n).toArray)
    (hmemory : 8 ≤ options.memorySize) (hsize : p.size < UInt64.size)
    (hrun : (p.called options target).after? k = some v) :
    ∃ past : Array TraceEntry, past.size = 1 ∧
      (q.machineAt options p.size).after? (1 + k) = some (v.embed q past) :=
  ⟨p.callTrace options, rfl, after?_machineAt_eq hq hmemory hsize hrun⟩

/-- The start routine is a faithful caller. Whatever the program of the source does after `k` steps
that follow the call, the launch does as well: it exits with `rax` after a return to the routine, it
exits where the program exits, and it fails where the program fails. The routine has to lie at
indices that `rip` can hold. -/
theorem launch_follows_call (hp : Program.ofSource source = .ok p) (hstart : p.hasStart = false)
    (hload : Program.load source options = .ok q) (hentry : p.entryLabel options = .ok label)
    (htarget : p.label? label = some target) (hmemory : 8 ≤ options.memorySize)
    (hsize : p.size + 4 ≤ UInt64.size) {k : Nat} {v : Machine}
    (hrun : (p.called options target).after? k = some v) :
    (v.exitStatus = none → v.state.rip = UInt64.ofNat (p.size + 1) → k + 4 ≤ options.maxSteps →
        ∃ c, launch source options = .ok c ∧ c.exitStatus = v.state.get .rax ∧
          c.stdout = v.output.stdout ∧ c.stderr = v.output.stderr ∧ c.steps = k + 4 ∧
            c.machine.memory = v.memory) ∧
      (∀ status, v.exitStatus = some status → k + 1 ≤ options.maxSteps →
        ∃ c, launch source options = .ok c ∧ c.exitStatus = status ∧
          c.stdout = v.output.stdout ∧ c.stderr = v.output.stderr ∧ c.steps = k + 1) ∧
      ∀ u error, v.step = (u, .error error) → k + 2 ≤ options.maxSteps →
        launch source options = .error (.machine error) := by
  obtain ⟨n, hn⟩ := Program.load_eq_of_hasStart_eq_false hp hstart hentry htarget hload
  have hq : q.instructions =
      p.instructions ++ (options.kernel.startInstructions label target n).toArray := by rw [hn]
  have hentryIndex : q.label? Program.startLabel = some p.size := by
    rw [hn, Program.label?, Labels.get?_insert, if_pos rfl]
  obtain ⟨past, hpast, hcalled⟩ := after?_machineAt hq hmemory (by omega) hrun
  have hkernel : v.kernel = options.kernel := (Machine.sameSetting_of_after? hrun).2
  refine ⟨?_, ?_, ?_⟩
  · intro hexit hrip hbudget
    obtain ⟨w, hw, hstatus, houtput, hmem⟩ :=
      Machine.after?_exit (m := v.embed q past) hq rfl hkernel hexit hrip hsize
    obtain ⟨hlaunch, hsteps⟩ := launch_of_exit hload hentryIndex (Machine.after?_trans hcalled hw)
      hstatus (by omega)
    refine ⟨_, hlaunch, rfl, ?_, ?_, ?_, hmem⟩
    · rw [Completed.stdout, houtput]
      rfl
    · rw [Completed.stderr, houtput]
      rfl
    · rw [Completed.steps, hsteps]
      omega
  · intro status hexit hbudget
    obtain ⟨hlaunch, hsteps⟩ := launch_of_exit hload hentryIndex hcalled hexit (by omega)
    refine ⟨_, hlaunch, rfl, rfl, rfl, ?_⟩
    rw [Completed.steps, hsteps, Nat.add_comm]
  · intro u error hstep hbudget
    have hprefix : v.program.PrefixOf q := by
      rw [(Machine.sameSetting_of_after? hrun).1]
      exact Program.prefixOf_append hq
    have hsteps : (q.machineAt options p.size).steps = 0 := rfl
    exact launch_of_failsWithin hload hentryIndex
      ⟨_, _, hcalled, Machine.step_embed_error hprefix hstep, by omega⟩

end

/-- A source with three labels: a call of `main` returns, a call of `quit` exits, and a call of
`crash` fails. -/
def threeEnds : String :=
  "main:\n\tmov eax, 7\n\tret\nquit:\n\tmov edi, 3\n\tmov eax, 60\n\tsyscall\n" ++
    "crash:\n\tpop rax\n\tpop rax\n"

/-- The program of `threeEnds`. -/
def threeEndsProgram : Program where
  instructions := #[
    ⟨.mov, [.register ⟨.rax, .dword⟩, .immediate 7], 2⟩,
    ⟨.ret, [], 3⟩,
    ⟨.mov, [.register ⟨.rdi, .dword⟩, .immediate 3], 5⟩,
    ⟨.mov, [.register ⟨.rax, .dword⟩, .immediate 60], 6⟩,
    ⟨.syscall, [], 7⟩,
    ⟨.pop, [.register ⟨.rax, .qword⟩], 9⟩,
    ⟨.pop, [.register ⟨.rax, .qword⟩], 10⟩]
  labels := .ofList [("crash", 5), ("main", 0), ("quit", 2)]

theorem launch_threeEnds :
    (∃ c, launch threeEnds { memorySize := 8 } = .ok c ∧ c.exitStatus = 7 ∧ c.steps = 6) ∧
      (∃ c, launch threeEnds { memorySize := 8, entry := some "quit" } = .ok c ∧
        c.exitStatus = 3 ∧ c.steps = 4) ∧
      launch threeEnds { memorySize := 8, entry := some "crash" } =
        .error (.machine (.instruction 10 "pop rax"
          (.memory { address := 8, length := 8, size := 8 }))) := by
  have hp : Program.ofSource threeEnds = .ok threeEndsProgram := by decide +kernel
  have hstart : threeEndsProgram.hasStart = false := by decide +kernel
  refine ⟨?_, ?_, ?_⟩
  · have hentry : threeEndsProgram.entryLabel { memorySize := 8 } = .ok "main" := by decide +kernel
    have htarget : threeEndsProgram.label? "main" = some 0 := by decide +kernel
    obtain ⟨n, hload⟩ :=
      Program.load_of_hasStart_eq_false hp hstart hentry htarget (by decide +kernel)
    obtain ⟨c, hc, hstatus, -, -, hsteps, -⟩ :=
      (launch_follows_call hp hstart hload hentry htarget (by decide) (by decide) (k := 2) rfl).1
        rfl rfl (by decide)
    exact ⟨c, hc, hstatus, hsteps⟩
  · have hentry : threeEndsProgram.entryLabel { memorySize := 8, entry := some "quit" } =
        .ok "quit" := by
      decide +kernel
    have htarget : threeEndsProgram.label? "quit" = some 2 := by decide +kernel
    obtain ⟨n, hload⟩ :=
      Program.load_of_hasStart_eq_false hp hstart hentry htarget (by decide +kernel)
    obtain ⟨c, hc, hstatus, -, -, hsteps⟩ :=
      (launch_follows_call hp hstart hload hentry htarget (by decide) (by decide) (k := 3) rfl).2.1
        3 rfl (by decide)
    exact ⟨c, hc, hstatus, hsteps⟩
  · have hentry : threeEndsProgram.entryLabel { memorySize := 8, entry := some "crash" } =
        .ok "crash" := by
      decide +kernel
    have htarget : threeEndsProgram.label? "crash" = some 5 := by decide +kernel
    obtain ⟨n, hload⟩ :=
      Program.load_of_hasStart_eq_false hp hstart hentry htarget (by decide +kernel)
    exact (launch_follows_call hp hstart hload hentry htarget (by decide) (by decide)
      (k := 1) rfl).2.2 _ _ rfl (by decide)

end X64
