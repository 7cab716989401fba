import X64.Proofs.Launch.StartRoutine

/-!
# The end of a source

A program with a start label of its own ends where its source ends (`launch_off_end`). A completed
program does not: behind the source lies the start routine, and its first instruction calls the
entry label once more.

* `Machine.afterCall` is the machine after a call. `launch_of_call`, `launch_ok_of_call` and
  `launch_error_of_call` say how a launch goes on from a call, with and without room on the stack.
* `after?_sourceEnd` brings a launch to the end of the source, where it stands before such a call.
-/

namespace X64

namespace Machine

/-- The slot below the stack lies inside memory. -/
def HasRoom (m : Machine) : Prop := m.memory.InBounds (m.state.rsp - slotSize) Width.qword.bytes

instance (m : Machine) : Decidable m.HasRoom := inferInstanceAs (Decidable (Memory.InBounds ..))

/-- The machine after a call of an index. -/
def afterCall (m : Machine) (target : Nat) : Machine :=
  m.record.applyEffect
    { state := (m.state.set .rsp (m.state.rsp - slotSize)).jump target
      store := some ⟨m.state.rsp - slotSize, .qword, m.state.rip + 1⟩ }

variable {m : Machine} {label : String} {target line : Nat}

theorem next?_of_call (hi : m.current? = some ⟨.call, [.label label target], line⟩)
    (h : m.HasRoom) : m.next? = some (m.afterCall target) :=
  next?_of_effect hi (show Mnemonic.call ≠ .syscall by decide) (Instruction.effect_call rfl rfl h)

theorem step_of_call (hi : m.current? = some ⟨.call, [.label label target], line⟩)
    (h : ¬m.HasRoom) :
    m.step = (m.record, .error (.instruction line
      (Instruction.render ⟨.call, [.label label target], line⟩)
      (.memory ⟨m.state.rsp - slotSize, Width.qword.bytes, m.memory.size⟩))) :=
  step_eq_instruction_error_iff.2
    ⟨_, hi, show Mnemonic.call ≠ .syscall by decide, Instruction.effect_call_error rfl rfl h, rfl,
      rfl, rfl⟩

end Machine

/-! ## Launches at a call -/

section

variable {source : String} {options : LaunchOptions} {q : Program} {entry k line target : Nat}
  {w : Machine} {label : String}

/-- A launch that ends has gone through the call. -/
theorem launch_ok_of_call (hload : Program.load source options = .ok q)
    (hentry : q.label? Program.startLabel = some entry)
    (hat : (q.machineAt options entry).after? k = some w)
    (hcall : w.current? = some ⟨.call, [.label label target], line⟩) {c : Completed}
    (h : launch source options = .ok c) :
    w.HasRoom ∧ ∃ j, (w.afterCall target).after? j = some c.machine ∧ c.machine.halted = true ∧
      c.exitStatus = c.machine.finalStatus ∧ c.steps = k + 1 + j := by
  obtain ⟨⟨i, hend, hhalted, -⟩, hstatus⟩ := (launch_eq_ok_iff hload hentry).1 h
  have hgoing : w.halted = false := by
    rw [Machine.halted, hcall]
    rfl
  obtain ⟨d, rfl, hrest⟩ := Machine.exists_after?_of_halted hat hgoing hend hhalted
  have hsteps : c.machine.steps = 0 + (k + (d + 1)) := Machine.steps_of_after? hend
  rw [Machine.after?] at hrest
  obtain ⟨x, hx, hrest⟩ := Option.bind_eq_some_iff.1 hrest
  by_cases hroom : w.HasRoom
  · obtain rfl : w.afterCall target = x :=
      Option.some.inj ((Machine.next?_of_call hcall hroom).symm.trans hx)
    refine ⟨hroom, d, hrest, hhalted, hstatus, ?_⟩
    rw [Completed.steps, hsteps]
    omega
  · have hstep := (Machine.next?_eq_some_iff.1 hx).2
    rw [Machine.step_of_call hcall hroom] at hstep
    cases hstep

/-- A launch ends if the machine after the call comes to a halt. -/
theorem launch_of_call (hload : Program.load source options = .ok q)
    (hentry : q.label? Program.startLabel = some entry)
    (hat : (q.machineAt options entry).after? k = some w)
    (hcall : w.current? = some ⟨.call, [.label label target], line⟩) (hroom : w.HasRoom) {j : Nat}
    {u : Machine} (hu : (w.afterCall target).after? j = some u) (hhalted : u.halted = true)
    (hbudget : k + 1 + j ≤ options.maxSteps) :
    launch source options = .ok { exitStatus := u.finalStatus, machine := u } := by
  have hnext : w.after? 1 = some (w.afterCall target) := by
    rw [Machine.after?_one]
    exact Machine.next?_of_call hcall hroom
  have hall := Machine.after?_trans (Machine.after?_trans hat hnext) hu
  have hsteps : (q.machineAt options entry).steps = 0 := rfl
  exact launch_of_haltsWithin hload hentry ⟨_, hall, hhalted, Or.inr (by omega)⟩

theorem launch_error_of_call (hload : Program.load source options = .ok q)
    (hentry : q.label? Program.startLabel = some entry)
    (hat : (q.machineAt options entry).after? k = some w)
    (hcall : w.current? = some ⟨.call, [.label label target], line⟩) (hroom : ¬w.HasRoom)
    (hbudget : k < options.maxSteps) :
    launch source options = .error (.machine (.instruction line
      (Instruction.render ⟨.call, [.label label target], line⟩)
      (.memory ⟨w.state.rsp - slotSize, Width.qword.bytes, w.memory.size⟩))) := by
  have hsteps : (q.machineAt options entry).steps = 0 := rfl
  exact launch_of_failsWithin hload hentry
    ⟨k, w, hat, Machine.step_of_call hcall hroom, by omega⟩

end

/-! ## The end of the source -/

section

variable {source : String} {options : LaunchOptions} {p q : Program} {label : String}
  {target k : Nat} {v : Machine}

/-- A program with a start label of its own ends when it runs off the end of its source. -/
theorem launch_off_end (hp : Program.ofSource source = .ok p) (hstart : p.hasStart = true)
    {entry : Nat} (hentry : p.label? Program.startLabel = some entry)
    (hrun : (p.machineAt options entry).after? k = some v) (hexit : v.exitStatus = none)
    (hrip : v.state.rip = UInt64.ofNat p.size) (hsize : p.size < UInt64.size)
    (hbudget : k ≤ options.maxSteps) :
    ∃ c, launch source options = .ok c ∧ c.exitStatus = v.state.get .rax ∧
      c.stdout = v.output.stdout ∧ c.stderr = v.output.stderr := by
  have hprogram : v.program = p := (Machine.sameSetting_of_after? hrun).1
  have hhalted : v.halted = true := by
    rw [Machine.halted, Machine.current?_eq hexit hrip hsize, hprogram]
    simp [Program.size]
  have hstatus : v.finalStatus = v.state.get .rax := by
    rw [Machine.finalStatus, hexit]
    rfl
  have hsteps : (p.machineAt options entry).steps = 0 := rfl
  have hlaunch := launch_of_haltsWithin (Program.load_of_hasStart hp hstart) hentry
    ⟨k, hrun, hhalted, Or.inr (by omega)⟩
  exact ⟨_, hlaunch, hstatus, rfl, rfl⟩

/-- A launch that comes to the end of the source stands before a call of the entry label. -/
theorem after?_sourceEnd {n : Nat} (hq : q.instructions =
      p.instructions ++ (options.kernel.startInstructions label target n).toArray)
    (hmemory : 8 ≤ options.memorySize) (hsize : p.size < UInt64.size)
    (hrun : (p.called options target).after? k = some v) (hexit : v.exitStatus = none)
    (hrip : v.state.rip = UInt64.ofNat p.size) :
    (q.machineAt options p.size).after? (k + 1) = some (v.embed q (p.callTrace options)) ∧
      (v.embed q (p.callTrace options)).current? =
        some ⟨.call, [.label label target], n + 1⟩ := by
  constructor
  · rw [Nat.add_comm]
    exact after?_machineAt_eq hq hmemory hsize hrun
  · exact (Machine.current?_eq (m := v.embed q (p.callTrace options)) hexit hrip hsize).trans
      (Program.getElem?_size_add hq 0)

/-- A completed program at the end of its source. The launch does not end there. It calls the entry
label again, and it ends with `rax` and the output of this moment if and only if the second call
ends with them too. -/
theorem launch_at_source_end (hp : Program.ofSource source = .ok p) (hstart : p.hasStart = false)
    (hload : Program.load source options = .ok q) (hentry : p.entryLabel options = .ok label)
    (htarget : p.label? label = some target) (hmemory : 8 ≤ options.memorySize)
    (hsize : p.size < UInt64.size) (hrun : (p.called options target).after? k = some v)
    (hexit : v.exitStatus = none) (hrip : v.state.rip = UInt64.ofNat p.size) :
    (∀ c, launch source options = .ok c → k + 1 < c.steps) ∧
      ((∃ bound, ∀ maxSteps, bound ≤ maxSteps →
          ∃ c, launch source { options with maxSteps } = .ok c ∧
            c.exitStatus = v.state.get .rax ∧ c.stdout = v.output.stdout ∧
              c.stderr = v.output.stderr) ↔
        v.HasRoom ∧ ∃ j u,
          ((v.afterCall target).embed q (p.callTrace options)).after? j = some u ∧
            u.halted = true ∧ u.finalStatus = v.state.get .rax ∧ u.output = v.output) ∧
      (¬v.HasRoom → k + 1 < options.maxSteps →
        launch source options = .error (.machine (.instruction (Kernel.startLine source + 1)
          (Instruction.render ⟨.call, [.label label target], Kernel.startLine source + 1⟩)
          (.memory ⟨v.state.rsp - slotSize, Width.qword.bytes, v.memory.size⟩)))) := by
  obtain ⟨hq, hentryIndex⟩ := Program.instructions_of_load hp hstart hentry htarget hload
  obtain ⟨hat, hcall⟩ := after?_sourceEnd hq hmemory hsize hrun hexit hrip
  have hagain : (v.embed q (p.callTrace options)).afterCall target =
      (v.afterCall target).embed q (p.callTrace options) := by
    rw [Machine.afterCall, Machine.record_embed]
    rfl
  refine ⟨fun c hc => ?_, ⟨?_, ?_⟩, fun hroom hbudget => ?_⟩
  · obtain ⟨-, j, -, -, -, hsteps⟩ := launch_ok_of_call hload hentryIndex hat hcall hc
    omega
  · rintro ⟨bound, hends⟩
    obtain ⟨c, hc, hstatus, hout, herr⟩ := hends bound (Nat.le_refl bound)
    have hload' : Program.load source { options with maxSteps := bound } = .ok q := hload
    obtain ⟨hroom, j, hu, hhalted, hfinal, -⟩ :=
      launch_ok_of_call hload' hentryIndex hat hcall hc
    rw [hagain] at hu
    have houtput : c.machine.output = v.output := congrArg₂ Output.mk hout herr
    exact ⟨hroom, j, c.machine, hu, hhalted, hfinal.symm.trans hstatus, houtput⟩
  · rintro ⟨hroom, j, u, hu, hhalted, hfinal, houtput⟩
    refine ⟨k + 1 + 1 + j, fun maxSteps hbudget => ?_⟩
    have hload' : Program.load source { options with maxSteps } = .ok q := hload
    rw [← hagain] at hu
    refine ⟨_, launch_of_call hload' hentryIndex hat hcall hroom hu hhalted hbudget, hfinal, ?_, ?_⟩
    · rw [Completed.stdout, houtput]
    · rw [Completed.stderr, houtput]
  · exact launch_error_of_call (w := v.embed q (p.callTrace options)) hload hentryIndex hat hcall
      hroom hbudget

/-- A source whose function runs off the end when it is called first, and returns when it is called
again. -/
def secondCall : String :=
  "main:\n\tcmp ebx, 1\n\tje again\n\tmov ebx, 1\n\tmov eax, 7\n\tjmp end\nagain:\n\tret\nend:"

/-- The program of `secondCall`. -/
def secondCallProgram : Program where
  instructions := #[
    ⟨.cmp, [.register ⟨.rbx, .dword⟩, .immediate 1], 2⟩,
    ⟨.jumpIf .equal, [.label "again" 5], 3⟩,
    ⟨.mov, [.register ⟨.rbx, .dword⟩, .immediate 1], 4⟩,
    ⟨.mov, [.register ⟨.rax, .dword⟩, .immediate 7], 5⟩,
    ⟨.jmp, [.label "end" 6], 6⟩,
    ⟨.ret, [], 8⟩]
  labels := .ofList [("again", 5), ("end", 6), ("main", 0)]

/-- The program of `secondCall` with the start routine behind it. -/
def secondCallCompleted : Program where
  instructions := secondCallProgram.instructions ++
    (Kernel.linux.startInstructions "main" 0 (Kernel.startLine secondCall)).toArray
  labels := secondCallProgram.labels.insert Program.startLabel 6

theorem launch_secondCall :
    ∃ bound, ∀ maxSteps, bound ≤ maxSteps →
      ∃ c, launch secondCall { memorySize := 16, maxSteps } = .ok c ∧ c.exitStatus = 7 := by
  have hp : Program.ofSource secondCall = .ok secondCallProgram := by decide +kernel
  have hstart : secondCallProgram.hasStart = false := by decide +kernel
  have hload : Program.load secondCall { memorySize := 16 } = .ok secondCallCompleted := by
    decide +kernel
  have hentry : secondCallProgram.entryLabel { memorySize := 16 } = .ok "main" := by decide +kernel
  have htarget : secondCallProgram.label? "main" = some 0 := by decide +kernel
  obtain ⟨v, hrun, hexit, hrip, hrax, hroom, u, hu, hhalted, hstatus, houtput⟩ :
      ∃ v ∈ (secondCallProgram.called { memorySize := 16 } 0).after? 5,
        v.exitStatus = none ∧ v.state.rip = UInt64.ofNat 6 ∧ v.state.get .rax = 7 ∧ v.HasRoom ∧
          ∃ u ∈ ((v.afterCall 0).embed secondCallCompleted
              (secondCallProgram.callTrace { memorySize := 16 })).after? 6,
            u.halted = true ∧ u.finalStatus = 7 ∧ u.output = v.output := by
    decide +kernel
  obtain ⟨-, hends, -⟩ := launch_at_source_end hp hstart hload hentry htarget (by decide)
    (by decide) hrun hexit hrip
  obtain ⟨bound, hbound⟩ := hends.2
    ⟨hroom, 6, u, hu, hhalted, hstatus.trans hrax.symm, houtput⟩
  refine ⟨bound, fun maxSteps hle => ?_⟩
  obtain ⟨c, hc, hcstatus, -, -⟩ := hbound maxSteps hle
  exact ⟨c, hc, hcstatus.trans hrax⟩

/-- A source that runs off its end at once. -/
def offEnd : String := "main:\n\tmov eax, 7"

/-- The program of `offEnd`. -/
def offEndProgram : Program where
  instructions := #[⟨.mov, [.register ⟨.rax, .dword⟩, .immediate 7], 2⟩]
  labels := .ofList [("main", 0)]

/-- The launch of `offEnd` comes to the end of the source with `rax` set, and still it does not
end. -/
theorem launch_offEnd :
    Program.ofSource offEnd = .ok offEndProgram ∧ offEndProgram.hasStart = false ∧
      (∃ q, Program.load offEnd { memorySize := 8 } = .ok q) ∧
      (∃ v, (offEndProgram.called { memorySize := 8 } 0).after? 1 = some v ∧ v.exitStatus = none ∧
        v.state.rip = UInt64.ofNat offEndProgram.size ∧ v.state.get .rax = 7) ∧
      ∀ maxSteps c, launch offEnd { memorySize := 8, maxSteps } ≠ .ok c := by
  have hp : Program.ofSource offEnd = .ok offEndProgram := by decide +kernel
  have hstart : offEndProgram.hasStart = false := by decide +kernel
  have hentry : offEndProgram.entryLabel { memorySize := 8 } = .ok "main" := by decide +kernel
  have htarget : offEndProgram.label? "main" = some 0 := by decide +kernel
  obtain ⟨q, hload⟩ : ∃ q, Program.load offEnd { memorySize := 8 } = .ok q := by
    obtain ⟨n, hload⟩ :=
      Program.load_of_hasStart_eq_false hp hstart hentry htarget (by decide +kernel)
    exact ⟨_, hload⟩
  obtain ⟨hq, hentryIndex⟩ := Program.instructions_of_load hp hstart hentry htarget hload
  obtain ⟨v, hrun, hexit, hrip, hrax, hroom⟩ :
      ∃ v ∈ (offEndProgram.called { memorySize := 8 } 0).after? 1,
        v.exitStatus = none ∧ v.state.rip = UInt64.ofNat offEndProgram.size ∧
          v.state.get .rax = 7 ∧ ¬v.HasRoom := by
    decide +kernel
  refine ⟨hp, hstart, ⟨q, hload⟩, ⟨v, hrun, hexit, hrip, hrax⟩, fun maxSteps c hc => ?_⟩
  obtain ⟨hat, hcall⟩ := after?_sourceEnd hq (by decide) (by decide) hrun hexit hrip
  have hload' : Program.load offEnd { memorySize := 8, maxSteps } = .ok q := hload
  exact hroom (launch_ok_of_call hload' hentryIndex hat hcall hc).1

end

end X64
