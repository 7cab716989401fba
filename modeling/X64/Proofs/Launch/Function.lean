import X64.Proofs.Launch.StartRoutine
import X64.Proofs.Machine.Block

/-!
# Launches of functions

What a block says about a function of a source is all there is to know for a launch: the start
routine adds one step in front of the function and three behind it.
-/

namespace X64

variable {source : String} {options : LaunchOptions} {p : Program} {label : String} {target k : Nat}
  {s : Snapshot}

/-- What is known right after the start routine has called an index: the stack holds the index to
return to, and all other registers are zero. -/
def Program.calledSnapshot (p : Program) (options : LaunchOptions) (target : Nat) : Snapshot where
  index := target
  registers := Function.update (fun _ => 0) .rsp (below options.memorySize 8)
  stack := [⟨8, .qword, UInt64.ofNat (p.size + 1)⟩]

theorem Program.shows_called (p : Program) (target : Nat) (hmemory : 8 ≤ options.memorySize)
    (htop : options.memorySize < UInt64.size) (hsize : p.size < UInt64.size) :
    (p.called options target).Shows p options.memorySize (p.calledSnapshot options target) where
  program_eq := rfl
  size_lt := hsize
  exitStatus_eq := rfl
  output_eq := rfl
  rip_eq := State.get_jump_rip _ _
  get_eq := by
    intro r hr
    show (p.called options target).state.get r =
      Function.update (fun _ => (0 : UInt64)) .rsp (below options.memorySize 8) r
    rw [called, State.get_jump_of_ne _ hr]
    by_cases hrsp : r = .rsp
    · rw [hrsp, State.get_set_self, Function.update_self, below]
    · rw [State.get_set_of_ne _ hrsp, Function.update_of_ne hrsp]
      exact (State.get_set_of_ne _ hrsp _).trans (by cases r <;> rfl)
  holds := by
    have hboot : (Memory.zeroed options.memorySize).Holds options.memorySize [] :=
      ⟨Memory.size_zeroed _, htop, by simp, by simp⟩
    exact hboot.store (t := ⟨8, .qword, UInt64.ofNat (p.size + 1)⟩) (le_refl 8) hmemory
      (Width.truncate_qword _) (by simp [calledSnapshot])

/-- A function of a source that returns to the start routine. Its launch exits with `rax`, or it
spends all steps it may take. -/
theorem launch_of_block (hp : Program.ofSource source = .ok p) (hstart : p.hasStart = false)
    (hentry : p.entryLabel options = .ok label) (hlabel : p.label? label = some target)
    (hname : View.ofName? label.toList = none) (hmemory : 8 ≤ options.memorySize)
    (htop : options.memorySize < UInt64.size) (hsize : p.size + 4 ≤ UInt64.size)
    (hblock : Block p options.memorySize k (p.calledSnapshot options target) s)
    (hreturn : s.index = p.size + 1) :
    (k + 4 ≤ options.maxSteps → ∃ c, launch source options = .ok c ∧
        c.exitStatus = s.registers .rax ∧ c.steps = k + 4 ∧ c.stdout = #[] ∧ c.stderr = #[]) ∧
      (options.maxSteps < k + 4 →
        launch source options = .error (.machine (.stepLimit options.maxSteps))) := by
  obtain ⟨n, hload⟩ := Program.load_of_hasStart_eq_false hp hstart hentry hlabel hname
  generalize hq : ({ p with
    instructions := p.instructions ++ (options.kernel.startInstructions label target n).toArray
    labels := p.labels.insert Program.startLabel p.size } : Program) = q at hload
  have hinstructions : q.instructions =
      p.instructions ++ (options.kernel.startInstructions label target n).toArray := by
    rw [← hq]
  have hstartIndex : q.label? Program.startLabel = some p.size := by
    rw [← hq, Program.label?, Labels.get?_insert, if_pos rfl]
  obtain ⟨v, hrun, hshows⟩ := hblock _ (p.shows_called target hmemory htop (by omega))
  obtain ⟨past, -, hcalled⟩ := after?_machineAt hinstructions hmemory (by omega) hrun
  have hkernel : v.kernel = options.kernel := (Machine.sameSetting_of_after? hrun).2
  have hrip : v.state.rip = UInt64.ofNat (p.size + 1) := by rw [hshows.rip_eq, hreturn]
  have hrax : v.state.get .rax = s.registers .rax := hshows.get_eq .rax (by decide)
  obtain ⟨u, hexit, hstatus, houtput, -⟩ := Machine.after?_exit (m := v.embed q past) hinstructions
    rfl hkernel hshows.exitStatus_eq hrip hsize
  have hall : (q.machineAt options p.size).after? (k + 4) = some u := by
    have h := Machine.after?_trans hcalled hexit
    rwa [show 1 + k + 3 = k + 4 by omega] at h
  refine ⟨?_, ?_⟩
  · intro hbudget
    obtain ⟨hlaunch, hsteps⟩ := launch_of_exit hload hstartIndex hall hstatus hbudget
    have hempty : u.output = {} := houtput.trans hshows.output_eq
    refine ⟨_, hlaunch, hrax, hsteps, ?_, ?_⟩
    · rw [Completed.stdout, hempty]
    · rw [Completed.stderr, hempty]
  · intro hbudget
    obtain ⟨w, hw, hhalted⟩ := Machine.exists_after?_of_lt hall hbudget
    have hsteps : (q.machineAt options p.size).steps = 0 := rfl
    exact launch_of_spendsLimit hload hstartIndex ⟨options.maxSteps, hw, hhalted, by omega⟩

end X64
