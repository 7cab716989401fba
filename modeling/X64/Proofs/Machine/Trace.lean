import X64.Proofs.Effect.Footprint
import X64.Proofs.Machine.Output
import X64.Proofs.Source.Assembly

/-!
# The path of a run

The trace of a run is a path through the program and along the stack. This module says which steps
such a path can take.

* `Instruction.LeadsTo` and `Instruction.MovesStackTo` say where `rip` and `rsp` go from a trace
  entry. `Performs.leadsTo` and `Performs.movesStackTo` prove it of the rules, for the instructions
  whose result does not go to these registers.
* `Machine.exists_passes_of_next?` is the step lemma, for system calls too.
* `Machine.exists_position_of_trace` says that each entry of a trace is the position of the machine
  from which that step was taken. So a path is made of the steps of its run (`legalPath_of_after?`,
  `legalPath_run`).
-/

namespace X64

/-! ## Registers that move -/

namespace State

variable (s : State)

theorem rsp_advance : s.advance.rsp = s.rsp := s.get_advance_of_ne (by decide)

theorem rsp_jump (target : Nat) : (s.jump target).rsp = s.rsp := s.get_jump_of_ne (by decide) target

theorem rsp_set_rsp (value : UInt64) : (s.set .rsp value).rsp = value := s.get_set_self .rsp value

theorem rsp_set_rip (value : UInt64) : (s.set .rip value).rsp = s.rsp :=
  s.get_set_of_ne (by decide) value

theorem rip_set_rsp (value : UInt64) : (s.set .rsp value).rip = s.rip :=
  s.get_set_of_ne (by decide) value

end State

/-! ## Instructions -/

namespace Instruction

/-- The result goes to a view of the register. -/
def Overwrites (i : Instruction) (r : Register) : Prop :=
  ∃ w, i.destination? = some (.register ⟨r, w⟩)

/-- Where control goes from a trace entry. Memory holds the address to which a `ret` returns. -/
def LeadsTo (i : Instruction) (memory : Memory) (t : TraceEntry) (rip : UInt64) : Prop :=
  match i.mnemonic with
  | .jmp | .call => ∃ name target, i.operands = [.label name target] ∧ rip = UInt64.ofNat target
  | .jumpIf _ => ∃ name target, i.operands = [.label name target] ∧
      (rip = UInt64.ofNat target ∨ rip = t.rip + 1)
  | .ret => memory.read t.rsp .qword = .ok rip
  | _ => rip = t.rip + 1

/-- Where the top of the stack goes from a trace entry. -/
def MovesStackTo (i : Instruction) (t : TraceEntry) (rsp : UInt64) : Prop :=
  match i.mnemonic with
  | .push | .call => rsp.toNat + 8 = t.rsp.toNat
  | .pop | .ret => rsp.toNat = t.rsp.toNat + 8
  | _ => rsp = t.rsp

/-- The second entry can follow the first one when the instruction is run. An instruction with its
result in `rip` or `rsp` can go anywhere there. -/
def Passes (i : Instruction) (memory : Memory) (t t' : TraceEntry) : Prop :=
  (¬i.Overwrites .rip → i.LeadsTo memory t t'.rip) ∧
    (¬i.Overwrites .rsp → i.MovesStackTo t t'.rsp)

variable {i : Instruction} {memory : Memory} {state : State} {e : Effect} {t : TraceEntry}

theorem leadsTo_of_hasDestination (hm : i.mnemonic.hasDestination = true) {rip : UInt64}
    (hrip : rip = t.rip + 1) : i.LeadsTo memory t rip := by
  unfold LeadsTo
  split <;> simp_all [Mnemonic.hasDestination]

/-- An instruction that writes its result and moves on. A pop writes after `rsp` has moved. -/
theorem leadsTo_of_write {dst : Operand} {rest : List Operand} {w : Width} {value rip : UInt64}
    (hm : i.mnemonic.hasDestination = true) (ho : i.operands = dst :: rest)
    (hwrite : dst.write memory state w value = .ok e) (hoverwrites : ¬i.Overwrites .rip)
    (hstate : state.rip = t.rip) (hrip : rip = e.state.rip + 1) : i.LeadsTo memory t rip := by
  have hkept : e.state.rip = state.rip :=
    get_of_write_destination hm ho hwrite fun w hw => hoverwrites ⟨w, hw⟩
  exact leadsTo_of_hasDestination hm (by rw [hrip, hkept, hstate])

/-- An instruction whose result does not go to `rip` moves on, or branches. -/
theorem Performs.leadsTo (h : i.Performs memory state e) (hrip : ¬i.Overwrites .rip) :
    i.LeadsTo memory ⟨state.rip, state.rsp⟩ e.state.rip := by
  cases h with
  | nop hm =>
    rw [LeadsTo, hm]
    exact State.get_advance_rip _
  | cmp hm ho hw ha hb =>
    rw [LeadsTo, hm]
    exact State.get_advance_rip _
  | shiftByZero hm ho hw hcount hzero =>
    exact leadsTo_of_hasDestination (Mnemonic.hasDestination_of_shift? hm) (State.get_advance_rip _)
  | mov hm ho hmemory hw hread hwrite =>
    exact leadsTo_of_write (by rw [hm]; rfl) ho hwrite hrip rfl (State.get_advance_rip _)
  | binary hm ho hw ha hb hwrite =>
    exact leadsTo_of_write (Mnemonic.hasDestination_of_operation? hm) ho hwrite hrip rfl
      (State.get_advance_rip _)
  | shift hm ho hw hcount hzero hread hwrite =>
    exact leadsTo_of_write (Mnemonic.hasDestination_of_shift? hm) ho hwrite hrip rfl
      (State.get_advance_rip _)
  | pop hm ho htop hwrite =>
    exact leadsTo_of_write (by rw [hm]; rfl) ho hwrite hrip (State.rip_set_rsp _ _)
      (State.get_advance_rip _)
  | push hm ho hvalue hroom =>
    rw [LeadsTo, hm]
    exact (State.get_advance_rip _).trans (congrArg (· + 1) (State.rip_set_rsp _ _))
  | call hm ho hroom =>
    rw [LeadsTo, hm]
    exact ⟨_, _, ho, State.get_jump_rip _ _⟩
  | ret hm ho htop =>
    rw [LeadsTo, hm]
    simp only [State.rip, State.get_set_self]
    exact htop
  | jmp hm ho =>
    rw [LeadsTo, hm]
    exact ⟨_, _, ho, State.get_jump_rip _ _⟩
  | jumpIf hm ho =>
    rw [LeadsTo, hm]
    refine ⟨_, _, ho, ?_⟩
    simp only
    split
    · exact Or.inl (State.get_jump_rip _ _)
    · exact Or.inr (State.get_advance_rip _)

theorem movesStackTo_of_movesStack (hm : i.mnemonic.movesStack = false) :
    i.MovesStackTo t t.rsp := by
  unfold MovesStackTo
  split <;> simp_all [Mnemonic.movesStack]

/-- An instruction that does not use the stack leaves `rsp` alone. -/
theorem Performs.rsp_eq (h : i.Performs memory state e) (hm : i.mnemonic.movesStack = false)
    (hrsp : ¬i.Overwrites .rsp) : e.state.rsp = state.rsp := by
  refine h.get_eq fun hmay => ?_
  rcases hmay with hne | hoverwrites | ⟨-, hstack⟩
  · cases hne
  · exact hrsp hoverwrites
  · rw [hm] at hstack
    cases hstack

/-- An instruction whose result does not go to `rsp` leaves it alone, or moves it by one slot. The
move does not wrap around, because the slot is inside memory. -/
theorem Performs.movesStackTo (h : i.Performs memory state e) (hsize : memory.size < UInt64.size)
    (hrsp : ¬i.Overwrites .rsp) : i.MovesStackTo ⟨state.rip, state.rsp⟩ e.state.rsp := by
  have hkept : i.mnemonic.movesStack = false →
      i.MovesStackTo ⟨state.rip, state.rsp⟩ e.state.rsp := fun hm => by
    rw [h.rsp_eq hm hrsp]
    exact movesStackTo_of_movesStack hm
  cases h with
  | push hm ho hvalue hroom =>
    rw [MovesStackTo, hm]
    simp only [State.rsp_advance, State.rsp_set_rsp]
    exact toNat_rsp_sub_slotSize hsize hroom
  | call hm ho hroom =>
    rw [MovesStackTo, hm]
    simp only [State.rsp_jump, State.rsp_set_rsp]
    exact toNat_rsp_sub_slotSize hsize hroom
  | pop hm ho htop hwrite =>
    rw [MovesStackTo, hm]
    have hmoved : _ = (state.set .rsp (state.rsp + slotSize)).rsp :=
      get_of_write_destination (by rw [hm]; rfl) ho hwrite fun w hw => hrsp ⟨w, hw⟩
    simp only [Effect.mapState, State.rsp_advance]
    rw [State.rsp, hmoved, State.rsp_set_rsp]
    exact toNat_rsp_add_slotSize hsize (Memory.inBounds_of_read htop)
  | ret hm ho htop =>
    rw [MovesStackTo, hm]
    simp only [State.rsp_set_rip, State.rsp_set_rsp]
    exact toNat_rsp_add_slotSize hsize (Memory.inBounds_of_read htop)
  | nop hm => exact hkept (by rw [hm]; rfl)
  | mov hm => exact hkept (by rw [hm]; rfl)
  | cmp hm => exact hkept (by rw [hm]; rfl)
  | jmp hm => exact hkept (by rw [hm]; rfl)
  | jumpIf hm => exact hkept (by rw [hm]; rfl)
  | binary hm => exact hkept (Mnemonic.movesStack_of_operation? hm)
  | shiftByZero hm => exact hkept (Mnemonic.movesStack_of_shift? hm)
  | shift hm => exact hkept (Mnemonic.movesStack_of_shift? hm)

end Instruction

/-! ## Steps -/

namespace Machine

variable {m v : Machine}

/-- The entry that the next step adds to the trace. -/
def position (m : Machine) : TraceEntry := ⟨m.state.rip, m.state.rsp⟩

theorem instruction_of_current? {i : Instruction} (h : m.current? = some i) :
    m.program.instructions[m.state.rip.toNat]? = some i := by
  unfold current? at h
  split at h
  · cases h
  · exact h

theorem size_of_next? (h : m.next? = some v) : v.memory.size = m.memory.size := by
  obtain ⟨i, -, ⟨-, e, -, rfl⟩ | ⟨-, e, -, rfl⟩⟩ := next?_cases h
  · cases e <;> rfl
  · exact Effect.size_commit e m.memory

theorem trace_of_next? (h : m.next? = some v) : v.trace = m.trace.push m.position := by
  obtain ⟨i, -, ⟨-, e, -, rfl⟩ | ⟨-, e, -, rfl⟩⟩ := next?_cases h
  · cases e <;> rfl
  · rfl

/-- Memory never grows or shrinks. -/
theorem size_of_after? {n : Nat} (h : m.after? n = some v) : v.memory.size = m.memory.size := by
  induction n generalizing v with
  | zero =>
    obtain rfl : m = v := by simpa using h
    rfl
  | succ n ih =>
    rw [after?_succ] at h
    obtain ⟨u, hu, hv⟩ := Option.bind_eq_some_iff.1 h
    rw [size_of_next? hv, ih hu]

/-- A system call that is served and does not end the run moves on, and leaves the stack alone. -/
theorem position_of_serve {e : SyscallEffect} (h : m.kernel.serve m.memory m.state = .ok e)
    (hrunning : (m.record.applySyscall e).halted = false) :
    (m.record.applySyscall e).state.rip = m.state.rip + 1 ∧
      (m.record.applySyscall e).state.rsp = m.state.rsp := by
  cases e with
  | exit status => cases hrunning
  | write s bytes next =>
    obtain ⟨-, -, -, -, rfl⟩ := Kernel.serve_eq_write_iff.1 h
    have hrip : (m.state.set .rax (m.state.get .rdx)).rip = m.state.rip :=
      State.get_set_of_ne _ (by decide) _
    have hrsp : (m.state.set .rax (m.state.get .rdx)).rsp = m.state.rsp :=
      State.get_set_of_ne _ (by decide) _
    constructor
    · exact (State.get_advance_rip _).trans (congrArg (· + 1) hrip)
    · exact (State.rsp_advance _).trans hrsp

theorem exists_passes_of_next? (hsize : m.memory.size < UInt64.size) (h : m.next? = some v)
    (hv : v.halted = false) :
    ∃ i, m.program.instructions[m.position.rip.toNat]? = some i ∧
      i.Passes m.memory m.position v.position := by
  obtain ⟨i, hi, ⟨hm, e, he, rfl⟩ | ⟨-, e, he, rfl⟩⟩ := next?_cases h
  · obtain ⟨hrip, hrsp⟩ := position_of_serve he hv
    refine ⟨i, instruction_of_current? hi, fun _ => ?_, fun _ => ?_⟩
    · rw [Instruction.LeadsTo, hm]
      exact hrip
    · rw [Instruction.MovesStackTo, hm]
      exact hrsp
  · have hrule := Instruction.performs_of_effect he
    exact ⟨i, instruction_of_current? hi, hrule.leadsTo, hrule.movesStackTo hsize⟩

/-! ## Runs -/

theorem size_trace_of_after? (hfresh : m.trace = #[]) {n : Nat} (h : m.after? n = some v) :
    v.trace.size = n := by
  have hsteps := steps_of_after? h
  rwa [steps, steps, hfresh, Array.size_empty, Nat.zero_add] at hsteps

/-- Each entry of a trace is the position of the machine from which that step was taken. -/
theorem exists_position_of_trace (hfresh : m.trace = #[]) {n : Nat} (h : m.after? n = some v)
    {j : Nat} {t : TraceEntry} (ht : v.trace[j]? = some t) :
    ∃ u, m.after? j = some u ∧ u.halted = false ∧ t = u.position := by
  induction n generalizing v with
  | zero =>
    obtain rfl : m = v := by simpa using h
    rw [hfresh] at ht
    cases ht
  | succ n ih =>
    rw [after?_succ] at h
    obtain ⟨u, hu, hnext⟩ := Option.bind_eq_some_iff.1 h
    rw [trace_of_next? hnext, Array.getElem?_push, size_trace_of_after? hfresh hu] at ht
    split at ht
    · next hj =>
      cases ht
      exact ⟨u, hj ▸ hu, (next?_eq_some_iff.1 hnext).1, rfl⟩
    · exact ih hu ht

/-- The same with the entry of a step that is about to be taken, and may fail. -/
theorem exists_position_of_record (hfresh : m.trace = #[]) {n : Nat} (h : m.after? n = some v)
    (hv : v.halted = false) {j : Nat} {t : TraceEntry} (ht : v.record.trace[j]? = some t) :
    ∃ u, m.after? j = some u ∧ u.halted = false ∧ t = u.position := by
  have hpush : (v.trace.push v.position)[j]? = some t := ht
  rw [Array.getElem?_push, size_trace_of_after? hfresh h] at hpush
  split at hpush
  · next hj =>
    cases hpush
    exact ⟨v, hj ▸ h, hv, rfl⟩
  · exact exists_position_of_trace hfresh h hpush

/-- Every two consecutive entries belong to a step of the run. The first one is the position of the
machine from which the step is taken, and its `rip` is the index of the instruction that is run. -/
def LegalPath (m : Machine) (path : Array TraceEntry) : Prop :=
  ∀ j t t', path[j]? = some t → path[j + 1]? = some t' →
    ∃ u i, m.after? j = some u ∧ t = u.position ∧
      m.program.instructions[t.rip.toNat]? = some i ∧ i.Passes u.memory t t'

theorem legalPath_record (hfresh : m.trace = #[]) (hsize : m.memory.size < UInt64.size) {n : Nat}
    (h : m.after? n = some v) (hv : v.halted = false) : m.LegalPath v.record.trace := by
  intro j t t' ht ht'
  obtain ⟨u, hu, -, rfl⟩ := exists_position_of_record hfresh h hv ht
  obtain ⟨w, hw, hrunning, rfl⟩ := exists_position_of_record hfresh h hv ht'
  rw [after?_succ, hu] at hw
  have hmemory : u.memory.size < UInt64.size := (size_of_after? hu).symm ▸ hsize
  obtain ⟨i, hi, hpasses⟩ := exists_passes_of_next? hmemory hw hrunning
  rw [(sameSetting_of_after? hu).1] at hi
  exact ⟨u, i, hu, rfl, hi, hpasses⟩

theorem legalPath_of_after? (hfresh : m.trace = #[]) (hsize : m.memory.size < UInt64.size) {n : Nat}
    (h : m.after? n = some v) : m.LegalPath v.trace := by
  cases n with
  | zero =>
    obtain rfl : m = v := by simpa using h
    intro j t t' ht
    rw [hfresh] at ht
    cases ht
  | succ n =>
    rw [after?_succ] at h
    obtain ⟨u, hu, hv⟩ := Option.bind_eq_some_iff.1 h
    rw [trace_of_next? hv]
    exact legalPath_record hfresh hsize hu (next?_eq_some_iff.1 hv).1

/-- However a run ends, its trace is a path. A failing step still adds its entry. -/
theorem legalPath_run (hfresh : m.trace = #[]) (hsize : m.memory.size < UInt64.size) (limit : Nat) :
    m.LegalPath (m.run limit).1.trace := by
  rcases m.run_cases limit with ⟨v, hv⟩ | ⟨v, e, hv⟩ | ⟨v, hv⟩
  · rw [hv.run_eq]
    obtain ⟨j, hj, -⟩ := hv
    exact legalPath_of_after? hfresh hsize hj
  · rw [hv.run_eq]
    obtain ⟨j, u, hj, hstep, -⟩ := hv
    obtain ⟨rfl, -⟩ := step_error hstep
    exact legalPath_record hfresh hsize hj (halted_of_step_error hstep)
  · rw [hv.run_eq]
    obtain ⟨j, hj, -⟩ := hv
    exact legalPath_of_after? hfresh hsize hj

/-- The machine with `rip` at an instruction. -/
def enter (m : Machine) (entry : Nat) : Machine := { m with state := m.state.jump entry }

theorem fst_runFrom (m : Machine) (entry limit : Nat) :
    (m.runFrom entry limit).1 = ((m.enter entry).run limit).1 := by
  rw [runFrom, enter]
  split <;> next hrun => rw [hrun]

end Machine

/-- Every trace describes a legal path of control and of the stack. Take any run of a parsed
program, of successful steps or up to its end. Each step leaves one trace entry, and the first of
two consecutive entries names the instruction that is run. Unless its result goes to `rip`, the
second entry is at the target of a `jmp` or a `call`, at the target of a conditional jump or behind
it, at the word on top of the stack for a `ret`, and otherwise one further. Unless its result goes
to `rsp`, a `push` or a `call` moves the stack down by eight and a `pop` or a `ret` moves it up,
without wrapping around, and every other instruction leaves it where it is. The targets are those of
the labels of the program. -/
theorem traces_are_legal_paths {source : String} {p : Program}
    (h : Program.ofSource source = .ok p) (kernel : Kernel) {memorySize : Nat}
    (hsize : memorySize < UInt64.size) (entry : Nat) :
    (∀ i ∈ p.instructions, ∀ name target, .label name target ∈ i.operands →
      p.label? name = some target) ∧
      (∀ n v, ((Machine.boot p kernel memorySize).enter entry).after? n = some v →
        v.trace.size = n ∧ ((Machine.boot p kernel memorySize).enter entry).LegalPath v.trace) ∧
      ∀ limit, ((Machine.boot p kernel memorySize).enter entry).LegalPath
        ((Machine.boot p kernel memorySize).runFrom entry limit).1.trace := by
  have hbytes : ((Machine.boot p kernel memorySize).enter entry).memory.size < UInt64.size :=
    (Memory.size_zeroed memorySize).symm ▸ hsize
  refine ⟨fun i hi name target ho => ?_, fun n v hv => ?_, fun limit => ?_⟩
  · have hfits := (Program.wellFormed_of_ofSource h).fits i hi
    exact (hfits.2 _ ho).2.2.2
  · exact ⟨Machine.size_trace_of_after? rfl hv, Machine.legalPath_of_after? rfl hbytes hv⟩
  · rw [Machine.fst_runFrom]
    exact Machine.legalPath_run rfl hbytes limit

/-- A source in which a function pushes a number and takes it back, and then returns. -/
def callAndReturn : String :=
  "call f\n jmp end\nf: push 7\n pop rbx\n ret\nend: nop"

/-- The program of `callAndReturn`. -/
def callAndReturnProgram : Program where
  instructions :=
    #[⟨.call, [.label "f" 2], 1⟩, ⟨.jmp, [.label "end" 5], 2⟩, ⟨.push, [.immediate 7], 3⟩,
      ⟨.pop, [.register ⟨.rbx, .qword⟩], 4⟩, ⟨.ret, [], 5⟩, ⟨.nop, [], 6⟩]
  labels := (Labels.empty.insert "f" 2).insert "end" 5

/-- The machine that is about to run `callAndReturn`. -/
def atCall : Machine := Machine.boot callAndReturnProgram .linux 32

/-- The path goes into the function and back, to the index that the call has pushed. -/
theorem callAndReturn_path :
    Program.ofSource callAndReturn = .ok callAndReturnProgram ∧
      (atCall.runFrom 0 10).1.trace =
        #[⟨0, 32⟩, ⟨2, 24⟩, ⟨3, 16⟩, ⟨4, 24⟩, ⟨1, 32⟩, ⟨5, 32⟩] ∧
      ∃ u, (atCall.enter 0).after? 3 = some u ∧ u.memory.read 24 .qword = .ok 1 := by
  have hsource : Program.ofSource callAndReturn = .ok callAndReturnProgram := by decide +kernel
  have htrace : (atCall.runFrom 0 10).1.trace =
      #[⟨0, 32⟩, ⟨2, 24⟩, ⟨3, 16⟩, ⟨4, 24⟩, ⟨1, 32⟩, ⟨5, 32⟩] := by decide +kernel
  have hsize : 32 < UInt64.size := by decide
  obtain ⟨-, -, hpath⟩ := traces_are_legal_paths hsource .linux hsize 0
  obtain ⟨u, i, hu, -, hi, hleads, -⟩ := hpath 10 3 ⟨4, 24⟩ ⟨1, 32⟩
    (congrArg (·[3]?) htrace) (congrArg (·[4]?) htrace)
  obtain rfl : ⟨.ret, [], 5⟩ = i := Option.some.inj hi
  refine ⟨hsource, htrace, u, hu, hleads ?_⟩
  rintro ⟨w, hw⟩
  cases hw

end X64
