import X64.Machine
import X64.Source.Program

/-!
# Launching programs

A source is completed by a start routine if it has none, and then run from its start label.
-/

namespace X64

/-- How a program is launched. -/
structure LaunchOptions where
  kernel : Kernel := .linux
  maxSteps : Nat := 1048575
  memorySize : Nat := Memory.defaultSize
  /-- The label that the start routine calls. Without one it is `main`, or else `_main`. -/
  entry : Option String := none
  deriving DecidableEq, Repr, Inhabited

/-- Why a program is not launched or does not end. -/
inductive LaunchError where
  | source (error : SourceError)
  | machine (error : MachineError)
  | noEntry (name : String) (labels : List String)
  deriving DecidableEq, Repr

namespace LaunchError

/-- The text of a character inside quotes. -/
def quoteChar (c : Char) : String :=
  match c with
  | '"' => "\\\""
  | '\\' => "\\\\"
  | '\n' => "\\n"
  | '\r' => "\\r"
  | '\t' => "\\t"
  | c => String.singleton c

/-- A name in quotes. -/
def quote (name : String) : String :=
  "\"" ++ String.join (name.toList.map quoteChar) ++ "\""

/-- The wording of the error. -/
def message : LaunchError → String
  | .source error => "Parse error: " ++ error.message
  | .machine error => "VM error: " ++ error.message
  | .noEntry name labels =>
    "Entry point '" ++ name ++ "' not found. Available labels: [" ++
      String.intercalate ", " (labels.map quote) ++ "]"

/-- The wording of the error and of the errors behind it, the outermost first. -/
def causes (e : LaunchError) : List String :=
  match e with
  | .source error => [e.message, error.message]
  | .machine error => e.message :: error.causes
  | .noEntry .. => [e.message]

end LaunchError

namespace Program

/-- The labels that are tried in turn when no entry is given. -/
def defaultEntries : List String := ["main", "_main"]

/-- The label that the start routine of a program calls. -/
def entryLabel (p : Program) (options : LaunchOptions) : Except LaunchError String :=
  match options.entry with
  | some name =>
    if (p.label? name).isSome then .ok name else .error (.noEntry name p.labels.names)
  | none =>
    match defaultEntries.find? fun name => (p.label? name).isSome with
    | some name => .ok name
    | none => .error (.noEntry "main" p.labels.names)

/-- The program of a source, given what was read from the source itself. If that does not say where
a run starts, a start routine is put at its end. -/
def complete (p : Program) (source : String) (options : LaunchOptions) :
    Except LaunchError Program := do
  if p.hasStart then
    pure p
  else
    let label ← p.entryLabel options
    (ofSource (source ++ "\n" ++ options.kernel.startRoutine label)).mapError .source

/-- Reads a source and completes it. -/
def load (source : String) (options : LaunchOptions) : Except LaunchError Program := do
  let p ← (ofSource source).mapError .source
  p.complete source options

/-- The machine for a program, and the index at which its run starts. -/
def prepare (p : Program) (options : LaunchOptions) : Except LaunchError (Machine × Nat) :=
  match p.label? startLabel with
  | some entry => .ok (Machine.boot p options.kernel options.memorySize, entry)
  | none => .error (.noEntry startLabel p.labels.names)

end Program

/-- A program that has come to its end. -/
structure Completed where
  exitStatus : UInt64
  machine : Machine
  deriving DecidableEq, Repr

namespace Completed

/-- The exit status as the exit code of a process: its low 32 bits. -/
def exitCode (c : Completed) : Int32 := c.exitStatus.toUInt32.toInt32

/-- The bytes written to the standard output. -/
def stdout (c : Completed) : Array UInt8 := c.machine.output.stdout

/-- The bytes written to the standard error output. -/
def stderr (c : Completed) : Array UInt8 := c.machine.output.stderr

/-- The number of instructions that were run. -/
def steps (c : Completed) : Nat := c.machine.steps

end Completed

/-- Runs a program from its start label to its end. -/
def Program.execute (p : Program) (options : LaunchOptions) : Except LaunchError Completed := do
  let (machine, entry) ← p.prepare options
  match machine.runFrom entry options.maxSteps with
  | (machine, .ok exitStatus) => pure { exitStatus, machine }
  | (_, .error error) => throw (.machine error)

/-- Reads, completes and runs a source. -/
def launch (source : String) (options : LaunchOptions) : Except LaunchError Completed := do
  let p ← Program.load source options
  p.execute options

end X64
