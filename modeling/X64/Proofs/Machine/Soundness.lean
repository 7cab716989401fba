import X64.Proofs.Machine.Extension
import X64.Proofs.Source.Assembly

/-!
# Sound programs

A program that is read from a source has the shape that the machine expects: each mnemonic stands
with as many operands as it takes, and labels stand behind branches and nowhere else. So a run never
ends because of the shape of an instruction, up to one case. Nothing stops a source from naming an
immediate as the place of a result, as `mov 5, rax` does, and this is found only when the
instruction is run.

* `Instruction.CanRaise` says which errors are left to an instruction.
* There is one lemma for each kind of handler. It takes the operands that the mnemonic has, and it
  follows the computation of the effect with `FailsOnlyWith.bind`.
* `Instruction.Fits.failsOnlyWith_effect` collects them for every instruction that fits, and
  `parsed_programs_do_not_go_wrong` is the result for programs, machines and runs.
-/

namespace X64

/-- Whether the operand is a label. -/
def Operand.isLabel : Operand → Bool
  | .label .. => true
  | _ => false

/-- Whether the result goes to the first operand at the width of the other one, or at that of a
stack slot, so that the first operand need not fix a width itself. -/
def Mnemonic.storesFirst : Mnemonic → Bool
  | .pop | .mov | .add | .sub | .and | .or | .xor => true
  | _ => false

namespace Instruction

/-- Whether the instruction stores its result in an immediate with the given text. -/
def StoresToImmediate (i : Instruction) (text : String) : Prop :=
  i.mnemonic.storesFirst = true ∧
    ∃ value rest, i.operands = .immediate value :: rest ∧ text = (Operand.immediate value).render

/-- The errors that are left to an instruction of a program that was read from a source. -/
def CanRaise (i : Instruction) : ExecutionError → Prop
  | .memory _ | .ambiguousWidth _ | .widthMismatch _ | .memoryToMemory _ => True
  | .invalidOperand text => i.StoresToImmediate text
  | .operandCount _ | .unsupported _ => False

end Instruction

/-! ## Memory and operands -/

section

variable {memory : Memory} {state : State} {i : Instruction} {o dst src : Operand}

theorem failsOnlyWith_storeEffect (s : Store) :
    FailsOnlyWith i.CanRaise (storeEffect memory state s) := by
  unfold storeEffect
  split
  · exact failsOnlyWith_ok _ _
  · exact failsOnlyWith_error trivial

theorem failsOnlyWith_loadWord (address : UInt64) (w : Width) :
    FailsOnlyWith i.CanRaise (loadWord memory address w) := by
  intro e he
  obtain ⟨_, -, rfl⟩ := mapError_eq_error_iff.1 he
  exact trivial

theorem failsOnlyWith_popWord : FailsOnlyWith i.CanRaise (popWord memory state) :=
  (failsOnlyWith_loadWord _ _).bind fun _ _ => failsOnlyWith_ok _ _

theorem failsOnlyWith_commonWidth : FailsOnlyWith i.CanRaise (i.commonWidth dst src) := by
  unfold Instruction.commonWidth
  split
  · split
    · exact failsOnlyWith_ok _ _
    · exact failsOnlyWith_error trivial
  · exact failsOnlyWith_ok _ _
  · exact failsOnlyWith_ok _ _
  · exact failsOnlyWith_error trivial

/-- Only a label cannot be read. -/
theorem failsOnlyWith_read (ho : o.isLabel = false) (w : Width) :
    FailsOnlyWith i.CanRaise (o.read memory state w) := by
  cases o with
  | register v => exact failsOnlyWith_ok _ _
  | immediate value => exact failsOnlyWith_ok _ _
  | memory m => exact failsOnlyWith_loadWord _ _
  | label name target => cases ho

/-- Only a label and an immediate cannot be written. -/
theorem failsOnlyWith_write (ho : o.isLabel = false)
    (himmediate : ∀ value, o = .immediate value → i.StoresToImmediate o.render) (w : Width)
    (value : UInt64) : FailsOnlyWith i.CanRaise (o.write memory state w value) := by
  cases o with
  | register v => exact failsOnlyWith_ok _ _
  | immediate x => exact failsOnlyWith_error (himmediate x rfl)
  | memory m => exact failsOnlyWith_storeEffect _
  | label name target => cases ho

/-- The first operand of an instruction that stores its result there. -/
theorem failsOnlyWith_write_first (hstores : i.mnemonic.storesFirst = true) {rest : List Operand}
    (hoperands : i.operands = dst :: rest) (hdst : dst.isLabel = false) (w : Width)
    (value : UInt64) : FailsOnlyWith i.CanRaise (dst.write memory state w value) := by
  refine failsOnlyWith_write hdst (fun x hx => ?_) w value
  subst hx
  exact ⟨hstores, x, rest, hoperands, rfl⟩

/-! ## Handlers -/

theorem failsOnlyWith_mov (hm : i.mnemonic = .mov) (hoperands : i.operands = [dst, src])
    (hdst : dst.isLabel = false) (hsrc : src.isLabel = false) :
    FailsOnlyWith i.CanRaise (Handler.mov memory state i) := by
  have hstores : i.mnemonic.storesFirst = true := by rw [hm]; rfl
  simp only [Handler.mov, Instruction.pair_eq hoperands, ok_bind]
  split
  · exact failsOnlyWith_error trivial
  · refine failsOnlyWith_commonWidth.bind fun w _ => ?_
    refine (failsOnlyWith_read hsrc w).bind fun value _ => ?_
    refine (failsOnlyWith_write_first hstores hoperands hdst w value).bind fun e _ => ?_
    exact failsOnlyWith_ok _ _

theorem failsOnlyWith_binary (op : Alu.Operation) (hstores : i.mnemonic.storesFirst = true)
    (hoperands : i.operands = [dst, src]) (hdst : dst.isLabel = false)
    (hsrc : src.isLabel = false) :
    FailsOnlyWith i.CanRaise (Handler.binary op memory state i) := by
  simp only [Handler.binary, Instruction.pair_eq hoperands, ok_bind]
  refine failsOnlyWith_commonWidth.bind fun w _ => ?_
  refine (failsOnlyWith_read hdst w).bind fun a _ => ?_
  refine (failsOnlyWith_read hsrc w).bind fun b _ => ?_
  refine (failsOnlyWith_write_first hstores hoperands hdst w _).bind fun e _ => ?_
  exact failsOnlyWith_ok _ _

theorem failsOnlyWith_cmp (hoperands : i.operands = [dst, src]) (hdst : dst.isLabel = false)
    (hsrc : src.isLabel = false) : FailsOnlyWith i.CanRaise (Handler.cmp memory state i) := by
  simp only [Handler.cmp, Instruction.pair_eq hoperands, ok_bind]
  refine failsOnlyWith_commonWidth.bind fun w _ => ?_
  refine (failsOnlyWith_read hdst w).bind fun a _ => ?_
  refine (failsOnlyWith_read hsrc w).bind fun b _ => ?_
  exact failsOnlyWith_ok _ _

/-- The destination of a shift has to fix the width, and an immediate does not. -/
theorem failsOnlyWith_shift (op : Alu.Operation) (hoperands : i.operands = [dst, src])
    (hdst : dst.isLabel = false) (hsrc : src.isLabel = false) :
    FailsOnlyWith i.CanRaise (Handler.shift op memory state i) := by
  simp only [Handler.shift, Instruction.pair_eq hoperands, ok_bind]
  split
  · exact failsOnlyWith_error trivial
  · next w hw =>
    have himmediate : ∀ value, dst = .immediate value → i.StoresToImmediate dst.render := by
      rintro value rfl
      cases hw
    refine (failsOnlyWith_read hsrc .byte).bind fun count _ => ?_
    split
    · exact failsOnlyWith_ok _ _
    · refine (failsOnlyWith_read hdst w).bind fun value _ => ?_
      refine (failsOnlyWith_write hdst himmediate w _).bind fun e _ => ?_
      exact failsOnlyWith_ok _ _

theorem failsOnlyWith_push (hoperands : i.operands = [o]) (ho : o.isLabel = false) :
    FailsOnlyWith i.CanRaise (Handler.push memory state i) := by
  have hstore : ∀ value, FailsOnlyWith i.CanRaise (pushWord memory state value >>= fun e =>
      pure (e.mapState State.advance)) :=
    fun value => (failsOnlyWith_storeEffect _).bind fun _ _ => failsOnlyWith_ok _ _
  simp only [Handler.push, Instruction.single_eq hoperands, ok_bind]
  split
  · exact hstore _
  · exact (failsOnlyWith_read ho _).bind fun value _ => hstore value

theorem failsOnlyWith_pop (hm : i.mnemonic = .pop) (hoperands : i.operands = [o])
    (ho : o.isLabel = false) : FailsOnlyWith i.CanRaise (Handler.pop memory state i) := by
  have hstores : i.mnemonic.storesFirst = true := by rw [hm]; rfl
  simp only [Handler.pop, Instruction.single_eq hoperands, ok_bind]
  refine failsOnlyWith_popWord.bind fun top _ => ?_
  refine (failsOnlyWith_write_first hstores hoperands ho _ _).bind fun e _ => ?_
  exact failsOnlyWith_ok _ _

theorem failsOnlyWith_call {target : Nat} (htarget : i.target = .ok target) :
    FailsOnlyWith i.CanRaise (Handler.call memory state i) := by
  simp only [Handler.call, htarget, ok_bind]
  exact (failsOnlyWith_storeEffect _).bind fun _ _ => failsOnlyWith_ok _ _

theorem failsOnlyWith_ret (hoperands : i.operands = []) :
    FailsOnlyWith i.CanRaise (Handler.ret memory state i) := by
  have hempty : (!i.operands.isEmpty) = false := by rw [hoperands]; rfl
  simp only [Handler.ret, hempty]
  exact failsOnlyWith_popWord.bind fun _ _ => failsOnlyWith_ok _ _

theorem failsOnlyWith_jmp {target : Nat} (htarget : i.target = .ok target) :
    FailsOnlyWith i.CanRaise (Handler.jmp memory state i) := by
  simp only [Handler.jmp, htarget, ok_bind]
  exact failsOnlyWith_ok _ _

theorem failsOnlyWith_jumpIf {c : Condition} (hm : i.mnemonic = .jumpIf c) {target : Nat}
    (htarget : i.target = .ok target) :
    FailsOnlyWith i.CanRaise (Handler.jumpIf memory state i) := by
  have hcondition : i.mnemonic.condition? = some c := by rw [hm]; rfl
  simp only [Handler.jumpIf, htarget, ok_bind, hcondition]
  exact failsOnlyWith_ok _ _

end

/-! ## Instructions that fit -/

namespace Instruction

variable {labels : Labels} {i : Instruction}

theorem isLabel_of_fits {m : Mnemonic} {o : Operand} (h : o.Fits labels m) :
    o.isLabel = m.takesLabel := by
  cases o with
  | register v => exact h.1.symm
  | immediate value => exact h.symm
  | memory m => exact h.symm
  | label name target => exact h.1.symm

theorem Fits.isLabel_eq (h : i.Fits labels) : ∀ o ∈ i.operands, o.isLabel = i.mnemonic.takesLabel :=
  fun o ho => isLabel_of_fits (h.2 o ho)

/-- The two operands of an instruction that takes two, neither of them a label. -/
theorem Fits.exists_pair (h : i.Fits labels) (harity : i.mnemonic.arity = 2) :
    ∃ dst src, i.operands = [dst, src] ∧ dst.isLabel = false ∧ src.isLabel = false := by
  have htakes : i.mnemonic.takesLabel = false := by
    rw [Bool.eq_false_iff]
    intro htakes
    rw [Mnemonic.arity_eq_one_of_takesLabel htakes] at harity
    cases harity
  obtain ⟨dst, src, hoperands⟩ := List.length_eq_two.1 (h.1.trans harity)
  have hlabel := h.isLabel_eq
  rw [hoperands, htakes] at hlabel
  exact ⟨dst, src, hoperands, hlabel dst (by simp), hlabel src (by simp)⟩

theorem Fits.exists_single (h : i.Fits labels) (harity : i.mnemonic.arity = 1)
    (htakes : i.mnemonic.takesLabel = false) :
    ∃ o, i.operands = [o] ∧ o.isLabel = false := by
  obtain ⟨o, hoperands⟩ := List.length_eq_one_iff.1 (h.1.trans harity)
  have hlabel := h.isLabel_eq
  rw [hoperands, htakes] at hlabel
  exact ⟨o, hoperands, hlabel o (by simp)⟩

/-- The operand of a branch is a label that stands for its target. -/
theorem Fits.exists_label (h : i.Fits labels) (htakes : i.mnemonic.takesLabel = true) :
    ∃ name target, i.operands = [.label name target] ∧ labels.get? name = some target := by
  have harity := Mnemonic.arity_eq_one_of_takesLabel htakes
  obtain ⟨o, hoperands⟩ := List.length_eq_one_iff.1 (h.1.trans harity)
  have hfits : o.Fits labels i.mnemonic := h.2 o (by simp [hoperands])
  have hlabel := isLabel_of_fits hfits
  rw [htakes] at hlabel
  cases o with
  | label name target => exact ⟨name, target, hoperands, hfits.2.2.2⟩
  | register v => cases hlabel
  | immediate value => cases hlabel
  | memory m => cases hlabel

theorem Fits.exists_target (h : i.Fits labels) (htakes : i.mnemonic.takesLabel = true) :
    ∃ target, i.target = .ok target := by
  obtain ⟨name, target, hoperands, -⟩ := h.exists_label htakes
  exact ⟨target, target_eq hoperands⟩

/-- An instruction that fits raises no other errors than those that are left to it. -/
theorem Fits.failsOnlyWith_effect (h : i.Fits labels) (hsyscall : i.mnemonic ≠ .syscall)
    (memory : Memory) (state : State) : FailsOnlyWith i.CanRaise (i.effect memory state) := by
  unfold effect
  cases hm : i.mnemonic with
  | push =>
    obtain ⟨o, hoperands, ho⟩ := h.exists_single (by rw [hm]; rfl) (by rw [hm]; rfl)
    exact failsOnlyWith_push hoperands ho
  | pop =>
    obtain ⟨o, hoperands, ho⟩ := h.exists_single (by rw [hm]; rfl) (by rw [hm]; rfl)
    exact failsOnlyWith_pop hm hoperands ho
  | mov =>
    obtain ⟨dst, src, hoperands, hdst, hsrc⟩ := h.exists_pair (by rw [hm]; rfl)
    exact failsOnlyWith_mov hm hoperands hdst hsrc
  | add | sub | and | or | xor =>
    obtain ⟨dst, src, hoperands, hdst, hsrc⟩ := h.exists_pair (by rw [hm]; rfl)
    exact failsOnlyWith_binary _ (by rw [hm]; rfl) hoperands hdst hsrc
  | cmp =>
    obtain ⟨dst, src, hoperands, hdst, hsrc⟩ := h.exists_pair (by rw [hm]; rfl)
    exact failsOnlyWith_cmp hoperands hdst hsrc
  | shl | shr =>
    obtain ⟨dst, src, hoperands, hdst, hsrc⟩ := h.exists_pair (by rw [hm]; rfl)
    exact failsOnlyWith_shift _ hoperands hdst hsrc
  | jmp =>
    obtain ⟨target, htarget⟩ := h.exists_target (by rw [hm]; rfl)
    exact failsOnlyWith_jmp htarget
  | jumpIf c =>
    obtain ⟨target, htarget⟩ := h.exists_target (by rw [hm]; rfl)
    exact failsOnlyWith_jumpIf hm htarget
  | call =>
    obtain ⟨target, htarget⟩ := h.exists_target (by rw [hm]; rfl)
    exact failsOnlyWith_call htarget
  | ret =>
    exact failsOnlyWith_ret (List.length_eq_zero_iff.1 (h.1.trans (by rw [hm]; rfl)))
  | nop => exact failsOnlyWith_ok _ _
  | syscall => exact absurd hm hsyscall

end Instruction

/-! ## Steps and runs -/

namespace Machine

/-- A step of a well-formed program raises an error that is left to the next instruction. -/
theorem canRaise_of_step {m v : Machine} (hp : m.program.WellFormed) {line : Nat} {text : String}
    {e : ExecutionError} (h : m.step = (v, .error (.instruction line text e))) :
    ∃ i, m.program.instructions[m.state.rip.toNat]? = some i ∧ line = i.line ∧ text = i.render ∧
      i.CanRaise e ∧ v = m.record := by
  obtain ⟨i, hi, hsyscall, heffect, hline, htext, hv⟩ := step_eq_instruction_error_iff.1 h
  have hmem : m.program.instructions[m.state.rip.toNat]? = some i := by
    unfold current? at hi
    split at hi
    · cases hi
    · exact hi
  have hfits := hp.fits i (Array.mem_of_getElem? hmem)
  exact ⟨i, hmem, hline, htext, hfits.failsOnlyWith_effect hsyscall _ _ e heffect, hv⟩

/-- A run stops at the failing step, so its last machine still names the instruction. -/
theorem canRaise_of_run {m v : Machine} (hp : m.program.WellFormed) {limit line : Nat}
    {text : String} {e : ExecutionError}
    (h : m.run limit = (v, .error (.instruction line text e))) :
    ∃ i, m.program.instructions[v.state.rip.toNat]? = some i ∧ line = i.line ∧ text = i.render ∧
      i.CanRaise e := by
  obtain ⟨j, u, hu, hstep, -⟩ := run_eq_error_iff.1 ⟨h, rfl⟩
  have hprogram : u.program = m.program := (sameSetting_of_after? hu).1
  obtain ⟨i, hi, hline, htext, hraise, rfl⟩ := canRaise_of_step (hprogram ▸ hp) hstep
  exact ⟨i, hprogram ▸ hi, hline, htext, hraise⟩

end Machine

/-- Parsed programs do not go wrong. The labels of a program that is read from a source stand at one
of its instructions or at its end. Each instruction has as many operands as its mnemonic takes; a
branch has a label that stands for its target, and no other instruction has a label. So no machine
that runs the program, whatever its memory and registers hold, fails because of a number of operands
or of a mnemonic, and it fails because of the kind of an operand only at a `pop`, `mov`, `add`,
`sub`, `and`, `or` or `xor` that stores its result in an immediate. -/
theorem parsed_programs_do_not_go_wrong {source : String} {p : Program}
    (h : Program.ofSource source = .ok p) :
    (∀ name index, p.label? name = some index → index ≤ p.size) ∧
      (∀ i ∈ p.instructions, i.operands.length = i.mnemonic.arity ∧
        (i.mnemonic.takesLabel = true →
          ∃ name target, i.operands = [.label name target] ∧ p.label? name = some target) ∧
        (i.mnemonic.takesLabel = false → ∀ o ∈ i.operands, o.isLabel = false)) ∧
      (∀ (m v : Machine) (line : Nat) (text : String) (e : ExecutionError), m.program = p →
        m.step = (v, .error (.instruction line text e)) →
          ∃ i, p.instructions[m.state.rip.toNat]? = some i ∧ line = i.line ∧ text = i.render ∧
            i.CanRaise e) ∧
      ∀ (m v : Machine) (limit line : Nat) (text : String) (e : ExecutionError), m.program = p →
        m.run limit = (v, .error (.instruction line text e)) →
          ∃ i, p.instructions[v.state.rip.toNat]? = some i ∧ line = i.line ∧ text = i.render ∧
            i.CanRaise e := by
  have hp : p.WellFormed := Program.wellFormed_of_ofSource h
  refine ⟨hp.label_le, fun i hi => ?_, ?_, ?_⟩
  · have hfits := hp.fits i hi
    refine ⟨hfits.1, hfits.exists_label, fun htakes o ho => ?_⟩
    rw [hfits.isLabel_eq o ho, htakes]
  · rintro m v line text e rfl hstep
    obtain ⟨i, hi, hline, htext, hraise, -⟩ := Machine.canRaise_of_step hp hstep
    exact ⟨i, hi, hline, htext, hraise⟩
  · rintro m v limit line text e rfl hrun
    exact Machine.canRaise_of_run hp hrun

/-- A source whose second instruction names a number as the place of its result. -/
def storeToNumber : String := "again: nop\n mov 5, rax\n jmp again"

/-- The program of `storeToNumber`. -/
def storeToNumberProgram : Program where
  instructions :=
    #[⟨.nop, [], 1⟩, ⟨.mov, [.immediate 5, .register ⟨.rax, .qword⟩], 2⟩,
      ⟨.jmp, [.label "again" 0], 3⟩]
  labels := Labels.empty.insert "again" 0

/-- The run fails at the number, with the number in the error. -/
theorem storeToNumber_fails_at_number :
    Program.ofSource storeToNumber = .ok storeToNumberProgram ∧
      ((Machine.boot storeToNumberProgram .linux 0).run 5).2 =
        .error (.instruction 2 "mov 5, rax" (.invalidOperand "5")) ∧
      ∃ i ∈ storeToNumberProgram.instructions, i.line = 2 ∧
        i.CanRaise (.invalidOperand "5") := by
  have hsource : Program.ofSource storeToNumber = .ok storeToNumberProgram := by decide +kernel
  have hrun : ((Machine.boot storeToNumberProgram .linux 0).run 5).2 =
      .error (.instruction 2 "mov 5, rax" (.invalidOperand "5")) := by decide +kernel
  obtain ⟨-, -, -, hruns⟩ := parsed_programs_do_not_go_wrong hsource
  obtain ⟨i, hi, hline, -, hraise⟩ := hruns (Machine.boot storeToNumberProgram .linux 0) _ 5 2
    "mov 5, rax" (.invalidOperand "5") rfl (Prod.ext rfl hrun)
  exact ⟨hsource, hrun, i, Array.mem_of_getElem? hi, hline.symm, hraise⟩

end X64
