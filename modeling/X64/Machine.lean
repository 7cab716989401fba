import X64.Effect
import X64.Syscall

/-!
# The machine

A machine runs a program one instruction at a time. It keeps a trace of every instruction that it
started, so the number of steps is the length of the trace. A failing step leaves a trace entry and
changes nothing else.
-/

namespace X64

/-- The registers of interest right before an instruction. -/
structure TraceEntry where
  rip : UInt64
  rsp : UInt64
  deriving DecidableEq, Repr, Inhabited

/-- A machine in the middle of a run. -/
structure Machine where
  program : Program
  kernel : Kernel
  memory : Memory
  state : State
  output : Output := {}
  exitStatus : Option UInt64 := none
  trace : Array TraceEntry := #[]
  deriving DecidableEq, Repr

/-- Why a run stops short of its end. -/
inductive MachineError where
  | instruction (line : Nat) (text : String) (error : ExecutionError)
  | syscall (error : SyscallError)
  | stepLimit (limit : Nat)
  deriving DecidableEq, Repr

namespace MachineError

/-- The wording of the error. -/
def message : MachineError → String
  | .instruction line text error =>
    "VM instruction error at line " ++ Text.decimal line ++ " ('" ++ text ++ "'): " ++ error.message
  | .syscall error => "VM syscall error: " ++ error.message
  | .stepLimit limit => "Step limit of " ++ Text.decimal limit ++ " instructions exceeded"

/-- The wording of the error and of the errors behind it, the outermost first. -/
def causes (e : MachineError) : List String :=
  match e with
  | .instruction _ _ error => e.message :: error.causes
  | .syscall error => e.message :: error.causes
  | .stepLimit _ => [e.message]

end MachineError

namespace Machine

/-- The machine that is about to run a program from its first instruction. The stack is empty and
starts at the end of memory. -/
def boot (program : Program) (kernel : Kernel) (memorySize : Nat) : Machine where
  program
  kernel
  memory := Memory.zeroed memorySize
  state := ({} : State).set .rsp (UInt64.ofNat memorySize)

/-- The instruction to run next. There is none after an exit, or when `rip` has left the program. -/
def current? (m : Machine) : Option Instruction :=
  if m.exitStatus.isSome then none else m.program.instructions[m.state.rip.toNat]?

/-- Whether the run is over. -/
def halted (m : Machine) : Bool := m.current?.isNone

/-- The number of instructions that were started. -/
def steps (m : Machine) : Nat := m.trace.size

/-- The status with which a halted program ends: that of its exit, or else the value of `rax`. -/
def finalStatus (m : Machine) : UInt64 := m.exitStatus.getD (m.state.get .rax)

/-- Adds the present registers to the trace. -/
def record (m : Machine) : Machine :=
  { m with trace := m.trace.push ⟨m.state.rip, m.state.rsp⟩ }

/-- The change that a system call makes. -/
def applySyscall (m : Machine) : SyscallEffect → Machine
  | .write stream bytes state => { m with output := m.output.append stream bytes, state }
  | .exit status => { m with exitStatus := some status }

/-- The change that an instruction makes. -/
def applyEffect (m : Machine) (e : Effect) : Machine :=
  { m with memory := e.commit m.memory, state := e.state }

/-- Runs one given instruction. -/
def perform (m : Machine) (i : Instruction) : Machine × Except MachineError Unit :=
  if i.mnemonic = .syscall then
    match m.kernel.serve m.memory m.state with
    | .ok effect => (m.applySyscall effect, .ok ())
    | .error error => (m, .error (.syscall error))
  else
    match i.effect m.memory m.state with
    | .ok effect => (m.applyEffect effect, .ok ())
    | .error error => (m, .error (.instruction i.line i.render error))

/-- Runs the next instruction. A halted machine stays as it is. -/
def step (m : Machine) : Machine × Except MachineError Unit :=
  match m.current? with
  | none => (m, .ok ())
  | some i => m.record.perform i

/-- Runs until the machine halts or fails, for at most `budget` further steps. A machine that would
need more fails with the step limit. -/
def runFor (limit : Nat) : Nat → Machine → Machine × Except MachineError Unit
  | 0, m => if m.halted then (m, .ok ()) else (m, .error (.stepLimit limit))
  | budget + 1, m =>
    if m.halted then (m, .ok ())
    else
      match m.step with
      | (m, .ok ()) => runFor limit budget m
      | (m, .error error) => (m, .error error)

/-- Runs until the machine halts or fails. The limit counts all steps since the machine was made. -/
def run (m : Machine) (limit : Nat) : Machine × Except MachineError Unit :=
  runFor limit (limit - m.steps) m

/-- Runs from the instruction with the given index and yields the final status. -/
def runFrom (m : Machine) (entry limit : Nat) : Machine × Except MachineError UInt64 :=
  match run { m with state := m.state.jump entry } limit with
  | (m, .ok ()) => (m, .ok m.finalStatus)
  | (m, .error error) => (m, .error error)

/-! ## Reports on a run -/

/-- The text of a trace entry: an object with two numbers. -/
def traceEntryText (e : TraceEntry) : String :=
  "\x7b\"rip\":" ++ Text.decimal e.rip.toNat ++ ",\"rsp\":" ++ Text.decimal e.rsp.toNat ++ "\x7d"

/-- The trace as a JSON array. -/
def traceText (m : Machine) : String :=
  "[" ++ String.intercalate "," (m.trace.toList.map traceEntryText) ++ "]"

end Machine

end X64
