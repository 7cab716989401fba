import X64.Launch
import X64.Proofs.Effect
import X64.Proofs.Machine.Run
import X64.Proofs.Source.Listing

/-!
# Completed programs

A source without a start label is read a second time with the text of a start routine behind it.
`ofSource_startRoutine` says what comes out: the program of the source, unchanged, and behind it the
four instructions of the routine. It works for every label that a branch can name, and
`ofSource_startRoutine_of_register` says what happens for a label with the name of a register.

A loaded program is then run from its start label, so `launch` is settled by a run of the machine
that stands there (`launch_of_haltsWithin`, `launch_of_failsWithin`, `launch_of_spendsLimit`).
-/

namespace X64

namespace Kernel

/-- The instructions of the start routine. They stand on the lines after line `n`. -/
def startInstructions (k : Kernel) (label : String) (target n : Nat) : List Instruction :=
  [⟨.call, [.label label target], n + 1⟩,
    ⟨.mov, [.register ⟨.rdi, .qword⟩, .register ⟨.rax, .qword⟩], n + 2⟩,
    ⟨.mov, [.register ⟨.rax, .qword⟩, .immediate (k.number .exit).toInt64], n + 3⟩,
    ⟨.syscall, [], n + 4⟩]

/-- The number of the line on which the label of a start routine behind a source stands. -/
def startLine (source : String) : Nat := source.toList.count '\n' + 2

variable (k : Kernel) {label : String}

/-- The lines of the start routine: its label, and its instructions behind a tab each. -/
def startLines (k : Kernel) (label : String) (target n : Nat) : List (List Char) :=
  (Program.startLabel ++ ":").toList ::
    (k.startInstructions label target n).map fun i => ['\t'] ++ i.render.toList

theorem toList_startRoutine (label : String) (target n : Nat) :
    (k.startRoutine label).toList =
      (k.startLines label target n).flatMap fun line => line ++ ['\n'] := by
  have hnumber : Text.integer (k.number .exit).toInt64.toInt =
      Text.decimal (k.number .exit).toNat := by
    cases k <;> decide +kernel
  simp [startRoutine, startLines, startInstructions, Instruction.render, Operand.render, hnumber,
    Mnemonic.name, View.render, View.name?, Register.nameAt?, Register.names, Program.startLabel]

/-- The instructions behind the call may stand anywhere. -/
theorem fits_of_mem_tail_startInstructions (labels : Labels) (label : String) (target n : Nat) :
    ∀ i ∈ (k.startInstructions label target n).tail, i.Fits labels := by
  intro i hi
  simp only [startInstructions, List.tail_cons, List.mem_cons, List.not_mem_nil, or_false] at hi
  rcases hi with rfl | rfl | rfl
  · exact ⟨rfl, by simp [Operand.Fits, Mnemonic.takesLabel, View.name?, Register.nameAt?]⟩
  · exact ⟨rfl, by simp [Operand.Fits, Mnemonic.takesLabel, View.name?, Register.nameAt?]⟩
  · exact ⟨rfl, by simp⟩

/-- The instructions of the start routine may stand where its label is defined. -/
theorem fits_of_mem_startInstructions {labels : Labels} {target : Nat}
    (h : (Operand.label label target).Fits labels .call) (n : Nat) :
    ∀ i ∈ k.startInstructions label target n, i.Fits labels := by
  intro i hi
  rcases List.mem_cons.1 hi with rfl | hi
  · exact ⟨rfl, by simpa using h⟩
  · exact k.fits_of_mem_tail_startInstructions labels label target n i hi

theorem newline_not_mem_startLines (h : Source.isLabelName label.toList = true) (target n : Nat) :
    ∀ line ∈ k.startLines label target n, '\n' ∉ line := by
  have hnumber : '\n' ∉ (Text.integer (k.number .exit).toInt64.toInt).toList := by
    cases k <;> decide +kernel
  have hlabel : '\n' ∉ label.toList := by
    intro hmem
    exact absurd ((Source.isLabelRest_of_isLabelName h).2 _ hmem) (by decide)
  simp [startLines, startInstructions, Instruction.render, Operand.render, Mnemonic.name,
    View.render, View.name?, Register.nameAt?, Register.names, Program.startLabel, hnumber, hlabel]

/-- The lines of a source with a start routine behind it. -/
theorem ofSource_startRoutine_lines (h : Source.isLabelName label.toList = true) (target : Nat)
    (source : String) :
    ∃ blank, (blank = [] ∨ ∃ number, blank = [⟨number, [], none⟩]) ∧
      Source.Line.ofSource (source ++ "\n" ++ k.startRoutine label).toList =
        Source.Line.ofSource source.toList ++
          (blank ++ (Source.Line.ofText (startLine source) (Program.startLabel ++ ":").toList ::
            Source.Line.ofTexts (startLine source)
              ((k.startInstructions label target (startLine source)).map fun i =>
                ['\t'] ++ i.render.toList))) := by
  have htext : (source ++ "\n" ++ k.startRoutine label).toList =
      source.toList ++ '\n' :: (k.startRoutine label).toList := by
    simp
  obtain ⟨blank, hblank, hlines⟩ :=
    Source.Line.ofSource_append source.toList (k.startRoutine label).toList
  refine ⟨blank, hblank, ?_⟩
  rw [htext, hlines, k.toList_startRoutine label target (startLine source),
    Text.lines_flatMap (k.newline_not_mem_startLines h target _), startLines,
    Source.Line.ofTexts_cons]
  rfl

/-- The line that calls a label, whatever the label is. -/
theorem ofText_call (h : Source.isLabelName label.toList = true) (target n : Nat) :
    Source.Line.ofText n
        (['\t'] ++ (Instruction.render ⟨.call, [.label label target], n⟩).toList) =
      ⟨n, [], some (.instruction (Mnemonic.name .call).toList [label.toList])⟩ := by
  have hitem := Source.IsItem.of_isLabelName h
  have hline := Source.Line.ofText_instruction n (show Text.Blanks ['\t'] by decide)
    (Mnemonic.forall_mem_name .call).2 (Mnemonic.forall_mem_name .call).1
    (show Text.Blanks [' '] by decide) (Or.inr (by simp)) hitem.no_mark
  have hitems : Text.items label.toList = [label.toList] := by
    have hsingle := @Text.items_intercalate [label.toList] (by simpa using hitem.ne_nil)
      (by simpa using hitem.tight) (by simpa using hitem.no_comma)
    simpa using hsingle
  rw [hitems] at hline
  rw [Instruction.toList_render]
  simpa [Instruction.gap, Instruction.texts, Operand.render] using hline

end Kernel

namespace Program

variable {source : String} {p q : Program} {label : String} {target : Nat}

/-- What a source and the label of a start routine behind it add. -/
theorem adds_startLabel (hp : ofSource source = .ok p) (hstart : p.hasStart = false)
    {blank : List Source.Line} (hblank : blank = [] ∨ ∃ number, blank = [⟨number, [], none⟩])
    (n : Nat) :
    Source.Adds (p.labels.insert startLabel p.size) 0 .empty (p.labels.insert startLabel p.size)
      p.instructions.toList p.directives
      (Source.Line.ofSource source.toList ++
        (blank ++ [Source.Line.ofText n (startLabel ++ ":").toList])) := by
  have hfresh : p.labels.get? startLabel = none := by
    simpa [hasStart, label?] using hstart
  obtain ⟨hadds, -⟩ := Source.assemble_iff_adds.1 hp
  have hsize : 0 + p.instructions.toList.length = p.size := Nat.zero_add _
  have hgap := Source.Adds.blank (p.labels.insert startLabel p.size) p.size p.labels hblank
  have hstartLabel := Source.adds_label (p.labels.insert startLabel p.size) (by decide +kernel)
    hfresh p.size n
  have hall := (hadds.mono (Labels.le_insert hfresh p.size)).append
    (by rw [hsize]; exact hgap.append hstartLabel)
  simpa using hall

/-- A source with a start routine behind it is read as the program of the source, followed by the
routine. -/
theorem ofSource_startRoutine (hp : ofSource source = .ok p) (hstart : p.hasStart = false)
    (hlabel : p.label? label = some target) (hname : View.ofName? label.toList = none)
    (k : Kernel) :
    ofSource (source ++ "\n" ++ k.startRoutine label) =
      .ok { p with
        instructions :=
          p.instructions ++ (k.startInstructions label target (Kernel.startLine source)).toArray
        labels := p.labels.insert startLabel p.size } := by
  have hfresh : p.labels.get? startLabel = none := by
    simpa [hasStart, label?] using hstart
  have hle : p.labels.Le (p.labels.insert startLabel p.size) := Labels.le_insert hfresh p.size
  have hlabelName := (wellFormed_of_ofSource hp).label_name label target hlabel
  obtain ⟨-, hfile⟩ := Source.assemble_iff_adds.1 hp
  obtain ⟨blank, hblank, hlines⟩ := k.ofSource_startRoutine_lines hlabelName target source
  generalize Kernel.startLine source = n at hlines ⊢
  have hcall : (Operand.label label target).Fits (p.labels.insert startLabel p.size) .call :=
    ⟨rfl, hlabelName, hname, hle label target hlabel⟩
  have hroutine := Source.adds_instructions (k.fits_of_mem_startInstructions hcall n)
    (show Text.Blanks ['\t'] by decide) (0 + p.instructions.toList.length)
    (p.labels.insert startLabel p.size) n
  have hnumbers : (k.startInstructions label target n).mapIdx
      (fun j i => { i with line := n + j + 1 }) = k.startInstructions label target n :=
    rfl
  rw [hnumbers] at hroutine
  rw [ofSource, hlines, Source.assemble_iff_adds]
  refine ⟨?_, hfile⟩
  have hall := (adds_startLabel hp hstart hblank n).append hroutine
  simpa using hall

/-- A start routine that calls a label with the name of a register is not read. Its call is to
blame. -/
theorem ofSource_startRoutine_of_register (hp : ofSource source = .ok p)
    (hstart : p.hasStart = false) (hlabel : p.label? label = some target)
    (hname : View.ofName? label.toList ≠ none) (k : Kernel) :
    ofSource (source ++ "\n" ++ k.startRoutine label) =
      .error (.invalidOperand (Kernel.startLine source + 1) label .notLabel) := by
  have hlabelName := (wellFormed_of_ofSource hp).label_name label target hlabel
  obtain ⟨blank, hblank, hlines⟩ := k.ofSource_startRoutine_lines hlabelName target source
  generalize Kernel.startLine source = n at hlines ⊢
  have hadds := adds_startLabel hp hstart hblank n
  generalize p.labels.insert startLabel p.size = labels at hadds
  have hcall := Kernel.ofText_call hlabelName target (n + 1)
  have hread : Source.instruction? labels (n + 1) (Mnemonic.name .call).toList [label.toList] =
      .error (.invalidOperand (n + 1) label .notLabel) := by
    have hoperand := @Source.operand?_of_isSome_ofName? labels .call rfl label.toList
      (Option.isSome_iff_ne_none.2 hname)
    rw [Source.instruction?, Mnemonic.ofName?_name]
    simp [Mnemonic.arity, hoperand, Except.mapError]
  -- The lines of the routine: the call, and lines that are read anywhere.
  have hroutine : Source.Line.ofTexts n ((k.startInstructions label target n).map fun i =>
        ['\t'] ++ i.render.toList) =
      ⟨n + 1, [], some (.instruction (Mnemonic.name .call).toList [label.toList])⟩ ::
        Source.Line.ofTexts (n + 1) ((k.startInstructions label target n).tail.map fun i =>
          ['\t'] ++ i.render.toList) := by
    rw [← hcall, ← Source.Line.ofTexts_cons]
    rfl
  have htail := Source.adds_instructions
    (k.fits_of_mem_tail_startInstructions labels label target n) (show Text.Blanks ['\t'] by decide)
    (0 + p.instructions.toList.length + 1) labels (n + 1)
  rw [hroutine] at hlines
  generalize Source.Line.ofTexts (n + 1) _ = rest at hlines htail
  have hcollect : Source.collectLabels 0 ((Source.Line.ofSource source.toList ++
      (blank ++ [Source.Line.ofText n (startLabel ++ ":").toList])) ++
        ⟨n + 1, [], some (.instruction (Mnemonic.name .call).toList [label.toList])⟩ :: rest)
      .empty = .ok labels := by
    rw [Source.collectLabels_append, hadds.labels_eq, ok_bind, hadds.countInstructions_eq,
      Source.collectLabels_cons]
    exact htail.labels_eq
  have hblame := Source.assemble_eq_error rfl hcollect hadds.instructions_eq hread
  rw [ofSource, hlines, ← hblame]
  simp

theorem load_of_hasStart {options : LaunchOptions} (hp : ofSource source = .ok p)
    (hstart : p.hasStart = true) : load source options = .ok p := by
  rw [load, hp]
  show p.complete source options = _
  rw [complete, hstart]
  rfl

/-- A source without a start label is read again, with a start routine behind it. -/
theorem load_eq_of_entryLabel {options : LaunchOptions} (hp : ofSource source = .ok p)
    (hstart : p.hasStart = false) (hentry : p.entryLabel options = .ok label) :
    load source options =
      (ofSource (source ++ "\n" ++ options.kernel.startRoutine label)).mapError .source := by
  rw [load, hp]
  show p.complete source options = _
  rw [complete, hstart, hentry]
  rfl

/-- What is loaded for a source without a start label. -/
theorem eq_of_load {options : LaunchOptions} (hp : ofSource source = .ok p)
    (hstart : p.hasStart = false) (hentry : p.entryLabel options = .ok label)
    (hlabel : p.label? label = some target) (hload : load source options = .ok q) :
    q = { p with
      instructions := p.instructions ++
        (options.kernel.startInstructions label target (Kernel.startLine source)).toArray
      labels := p.labels.insert startLabel p.size } := by
  rw [load_eq_of_entryLabel hp hstart hentry, mapError_eq_ok_iff] at hload
  by_cases hname : View.ofName? label.toList = none
  · rw [ofSource_startRoutine hp hstart hlabel hname] at hload
    exact (Except.ok.inj hload).symm
  · rw [ofSource_startRoutine_of_register hp hstart hlabel hname] at hload
    exact absurd hload (by simp)

theorem load_eq_of_hasStart_eq_false {options : LaunchOptions} (hp : ofSource source = .ok p)
    (hstart : p.hasStart = false) (hentry : p.entryLabel options = .ok label)
    (hlabel : p.label? label = some target) (hload : load source options = .ok q) :
    ∃ n, q = { p with
      instructions := p.instructions ++ (options.kernel.startInstructions label target n).toArray
      labels := p.labels.insert startLabel p.size } :=
  ⟨_, eq_of_load hp hstart hentry hlabel hload⟩

/-- The instructions of a completed program, and its start label. -/
theorem instructions_of_load {options : LaunchOptions} (hp : ofSource source = .ok p)
    (hstart : p.hasStart = false) (hentry : p.entryLabel options = .ok label)
    (hlabel : p.label? label = some target) (hload : load source options = .ok q) :
    q.instructions = p.instructions ++
        (options.kernel.startInstructions label target (Kernel.startLine source)).toArray ∧
      q.label? startLabel = some p.size := by
  obtain rfl := eq_of_load hp hstart hentry hlabel hload
  refine ⟨rfl, ?_⟩
  rw [label?, Labels.get?_insert, if_pos rfl]

/-- A source without a start label loads if its entry label is not the name of a register. -/
theorem load_of_hasStart_eq_false {options : LaunchOptions} (hp : ofSource source = .ok p)
    (hstart : p.hasStart = false) (hentry : p.entryLabel options = .ok label)
    (hlabel : p.label? label = some target) (hname : View.ofName? label.toList = none) :
    ∃ n, load source options = .ok { p with
      instructions := p.instructions ++ (options.kernel.startInstructions label target n).toArray
      labels := p.labels.insert startLabel p.size } := by
  refine ⟨Kernel.startLine source, ?_⟩
  rw [load_eq_of_entryLabel hp hstart hentry, mapError_eq_ok_iff]
  exact ofSource_startRoutine hp hstart hlabel hname options.kernel

/-! ## Launches -/

/-- The machine whose run is about to start at the given index. -/
def machineAt (q : Program) (options : LaunchOptions) (entry : Nat) : Machine :=
  let m := Machine.boot q options.kernel options.memorySize
  { m with state := m.state.jump entry }

theorem rip_machineAt (q : Program) (options : LaunchOptions) (entry : Nat) :
    (q.machineAt options entry).state.rip = UInt64.ofNat entry :=
  State.get_jump_rip _ entry

theorem rsp_machineAt (q : Program) (options : LaunchOptions) (entry : Nat) :
    (q.machineAt options entry).state.rsp = UInt64.ofNat options.memorySize :=
  (State.get_jump_of_ne _ (by decide) entry).trans (State.get_set_self _ _ _)

theorem size_memory_machineAt (q : Program) (options : LaunchOptions) (entry : Nat) :
    (q.machineAt options entry).memory.size = options.memorySize :=
  Memory.size_zeroed _

end Program

section

variable {source : String} {options : LaunchOptions} {q : Program} {entry : Nat} {v : Machine}

/-- A launch of a source that loads is a run from the start label. -/
theorem launch_eq (hload : Program.load source options = .ok q)
    (hentry : q.label? Program.startLabel = some entry) :
    launch source options =
      match (q.machineAt options entry).run options.maxSteps with
      | (m, .ok ()) => .ok { exitStatus := m.finalStatus, machine := m }
      | (_, .error e) => .error (.machine e) := by
  rcases hrun : (q.machineAt options entry).run options.maxSteps with ⟨m, r⟩
  have hfrom : (Machine.boot q options.kernel options.memorySize).runFrom entry options.maxSteps =
      (m, r.map fun _ => m.finalStatus) := by
    rw [Machine.runFrom]
    change (match (q.machineAt options entry).run options.maxSteps with
      | (m, .ok ()) => (m, Except.ok m.finalStatus)
      | (m, .error e) => (m, Except.error e)) = _
    rw [hrun]
    cases r <;> rfl
  rw [launch, hload]
  change q.execute options = _
  rw [Program.execute, Program.prepare, hentry, ok_bind]
  simp only [hfrom]
  cases r <;> rfl

theorem launch_eq_ok_iff (hload : Program.load source options = .ok q)
    (hentry : q.label? Program.startLabel = some entry) {c : Completed} :
    launch source options = .ok c ↔
      (q.machineAt options entry).HaltsWithin options.maxSteps c.machine ∧
        c.exitStatus = c.machine.finalStatus := by
  obtain ⟨status, w⟩ := c
  rw [launch_eq hload hentry, ← Machine.run_eq_ok_iff]
  rcases (q.machineAt options entry).run options.maxSteps with ⟨m, r⟩
  cases r with
  | error e => simp
  | ok _ =>
    simp only [Except.ok.injEq, Completed.mk.injEq, Prod.mk.injEq, and_true]
    constructor
    · rintro ⟨rfl, rfl⟩
      exact ⟨rfl, rfl⟩
    · rintro ⟨rfl, rfl⟩
      exact ⟨rfl, rfl⟩

theorem launch_of_haltsWithin (hload : Program.load source options = .ok q)
    (hentry : q.label? Program.startLabel = some entry)
    (h : (q.machineAt options entry).HaltsWithin options.maxSteps v) :
    launch source options = .ok { exitStatus := v.finalStatus, machine := v } := by
  rw [launch_eq hload hentry, h.run_eq]

/-- A launch that reaches an exit within the limit. -/
theorem launch_of_exit (hload : Program.load source options = .ok q)
    (hentry : q.label? Program.startLabel = some entry) {j : Nat} {status : UInt64}
    (hv : (q.machineAt options entry).after? j = some v) (hexit : v.exitStatus = some status)
    (hj : j ≤ options.maxSteps) :
    launch source options = .ok { exitStatus := status, machine := v } ∧ v.steps = j := by
  have hhalted : v.halted = true := by
    rw [Machine.halted, Machine.current?, hexit]
    rfl
  have hstatus : v.finalStatus = status := by
    rw [Machine.finalStatus, hexit]
    rfl
  have hsteps : (q.machineAt options entry).steps = 0 := rfl
  have hcount := Machine.steps_of_after? hv
  refine ⟨?_, by omega⟩
  rw [← hstatus]
  exact launch_of_haltsWithin hload hentry ⟨j, hv, hhalted, Or.inr (by omega)⟩

theorem launch_of_failsWithin (hload : Program.load source options = .ok q)
    (hentry : q.label? Program.startLabel = some entry) {e : MachineError}
    (h : (q.machineAt options entry).FailsWithin options.maxSteps v e) :
    launch source options = .error (.machine e) := by
  rw [launch_eq hload hentry, h.run_eq]

theorem launch_of_spendsLimit (hload : Program.load source options = .ok q)
    (hentry : q.label? Program.startLabel = some entry)
    (h : (q.machineAt options entry).SpendsLimit options.maxSteps v) :
    launch source options = .error (.machine (.stepLimit options.maxSteps)) := by
  rw [launch_eq hload hentry, h.run_eq]

end

end X64
