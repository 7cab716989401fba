import X64.Launch

/-!
# The command line

The arguments name a source file and say how it is launched. What the program prints, the log and
the exit code follow from the arguments and from the contents of that file. Reading and writing
files is left to the caller.
-/

namespace X64

/-! ## Arguments -/

/-- What the arguments ask for. -/
structure Invocation where
  file : String
  kernel : Kernel := .linux
  entry : Option String := none
  maxSteps : Nat := ({} : LaunchOptions).maxSteps
  debugInstructions : Bool := false
  traceFile : Option String := none
  verbose : Bool := false
  deriving DecidableEq, Repr, Inhabited

namespace CommandLine

/-- What one argument says. -/
inductive Setting where
  | file (value : String)
  | kernel (value : String)
  | entry (value : String)
  | maxSteps (value : String)
  | traceFile (value : String)
  | debugInstructions
  | verbose
  deriving DecidableEq, Repr

/-- An argument, or the part of it that comes before its value. -/
inductive Argument where
  | complete (settings : List Setting)
  | expectsValue (settings : List Setting) (setting : String → Setting)
  | endOfOptions
  | unknown

/-- The option that takes a value and has the given long name. -/
def longOption? (name : List Char) : Option (String → Setting) :=
  [("kernel".toList, Setting.kernel), ("entrypoint".toList, Setting.entry),
    ("max-steps".toList, Setting.maxSteps), ("trace-output".toList, Setting.traceFile)].lookup name

/-- The switch with the given long name. -/
def longSwitch? (name : List Char) : Option Setting :=
  [("debug-instructions".toList, Setting.debugInstructions),
    ("verbose".toList, Setting.verbose)].lookup name

/-- Reads what follows two dashes: a name, and a value after an equals sign. -/
def Argument.ofLong (cs : List Char) : Argument :=
  let name := cs.takeWhile (· != '=')
  let value? := (cs.dropWhile (· != '=')).tail?
  match longOption? name, longSwitch? name, value? with
  | some option, _, some value => .complete [option (String.ofList value)]
  | some option, _, none => .expectsValue [] option
  | none, some switch, none => .complete [switch]
  | _, _, _ => .unknown

/-- Reads what follows one dash: letters of switches, and at most one option with the rest of the
argument as its value. -/
def Argument.ofShort (settings : List Setting) : List Char → Argument
  | [] => .complete settings
  | 'v' :: cs => ofShort (settings ++ [.verbose]) cs
  | 'k' :: cs => attached .kernel cs
  | 'e' :: cs => attached .entry cs
  | _ => .unknown
where
  attached (option : String → Setting) : List Char → Argument
    | [] => .expectsValue settings option
    | '=' :: cs => .complete (settings ++ [option (String.ofList cs)])
    | cs => .complete (settings ++ [option (String.ofList cs)])

/-- Reads one argument. A single dash is a file. -/
def Argument.ofText (arg : String) : Argument :=
  match arg.toList with
  | ['-', '-'] => .endOfOptions
  | '-' :: '-' :: cs => .ofLong cs
  | '-' :: c :: cs => .ofShort [] (c :: cs)
  | _ => .complete [.file arg]

/-- Whether an argument can be the value of the option before it. -/
def isValue (arg : String) : Bool :=
  match arg.toList with
  | '-' :: _ :: _ => false
  | _ => true

/-- What a list of arguments says, one after the other. -/
def settings? : List String → Option (List Setting)
  | [] => some []
  | arg :: rest =>
    match Argument.ofText arg with
    | .complete settings => (settings? rest).map (settings ++ ·)
    | .endOfOptions => some (rest.map .file)
    | .unknown => none
    | .expectsValue settings setting =>
      match rest with
      | [] => none
      | value :: rest =>
        if isValue value then (settings? rest).map (settings ++ setting value :: ·) else none

/-- The only element of a list, or none of an empty list. Longer lists are refused. -/
def atMostOne {α : Type} : List α → Option (Option α)
  | [] => some none
  | [a] => some (some a)
  | _ => none

/-- Reads a number of steps. -/
def stepCount? (value : String) : Option Nat := (Text.word? 10 value.toList).map UInt64.toNat

/-- A path that is not empty. -/
def path? (value : String) : Option String := if value.isEmpty then none else some value

end CommandLine

open CommandLine in
/-- The invocation with the given arguments. Each setting may be given once, and there has to be
exactly one file. -/
def Invocation.ofArguments? (args : List String) : Option Invocation := do
  let settings ← settings? args
  let some file ← atMostOne (settings.filterMap fun | .file v => some v | _ => none) | none
  let kernel ← atMostOne (settings.filterMap fun | .kernel v => some v | _ => none)
  let entry ← atMostOne (settings.filterMap fun | .entry v => some v | _ => none)
  let maxSteps ← atMostOne (settings.filterMap fun | .maxSteps v => some v | _ => none)
  let traceFile ← atMostOne (settings.filterMap fun | .traceFile v => some v | _ => none)
  let debug ← atMostOne (settings.filter (· == .debugInstructions))
  let verbose ← atMostOne (settings.filter (· == .verbose))
  let file ← path? file
  let kernel ← kernel.mapM fun v => Kernel.ofName? v.toList
  let maxSteps ← maxSteps.mapM stepCount?
  let traceFile ← traceFile.mapM path?
  some
    { file
      kernel := kernel.getD .linux
      entry
      maxSteps := maxSteps.getD ({} : LaunchOptions).maxSteps
      debugInstructions := debug.isSome
      traceFile
      verbose := verbose.isSome }

/-- The launch options of an invocation. -/
def Invocation.options (inv : Invocation) : LaunchOptions where
  kernel := inv.kernel
  maxSteps := inv.maxSteps
  entry := inv.entry

/-! ## Reports -/

namespace CommandLine

/-- Why a file cannot be read or written. -/
inductive FileError where
  | notFound
  | permissionDenied
  | notDirectory
  | isDirectory
  | notText
  | other (text : String)
  deriving DecidableEq, Repr

/-- The wording of the error. -/
def FileError.message : FileError → String
  | .notFound => "No such file or directory (os error 2)"
  | .permissionDenied => "Permission denied (os error 13)"
  | .notDirectory => "Not a directory (os error 20)"
  | .isDirectory => "Is a directory (os error 21)"
  | .notText => "stream did not contain valid UTF-8"
  | .other text => text

/-- The text that a source file holds. -/
def decodeSource (bytes : ByteArray) : Except FileError String :=
  match String.fromUTF8? bytes with
  | some source => .ok source
  | none => .error .notText

/-- Puts a text between lines of the same indentation. -/
def indent (first others text : String) : String :=
  first ++ String.intercalate ("\n" ++ others) (text.splitOn "\n")

/-- The report on a failure: what failed, and the causes, each one behind the one before it. Several
causes are numbered. -/
def report (context : String) (causes : List String) : String :=
  let block :=
    match causes with
    | [] => ""
    | [cause] => "\n\nCaused by:\n" ++ indent "    " "    " cause
    | causes =>
      "\n\nCaused by:" ++
        String.join (causes.mapIdx fun i cause =>
          "\n" ++ indent ("    " ++ Text.decimal i ++ ": ") "       " cause)
  "Error: " ++ context ++ block ++ "\n"

/-- The log line of an instruction that is about to run. -/
def instructionLine (p : Program) (e : TraceEntry) : String :=
  match p.instructions[e.rip.toNat]? with
  | some i =>
    "INFO x86e_runner::vm: " ++ i.render ++ " rip=" ++ Text.decimal e.rip.toNat ++ " line=" ++
      Text.decimal i.line ++ "\n"
  | none => ""

/-- The log line of a program that has ended. -/
def exitLine (status : UInt64) (steps : Nat) : String :=
  "INFO x86e: program exited status=" ++ Text.decimal status.toNat ++ " steps=" ++
    Text.decimal steps ++ "\n"

/-- The log line about an entry that the program's own start label makes void. -/
def ignoredEntryLine (entry : String) : String :=
  "WARN x86e_runner: program defines _start, ignoring entry point entrypoint=" ++ entry ++ "\n"

end CommandLine

/-! ## Running -/

/-- What the caller sees of a finished invocation. -/
structure Outcome where
  exitCode : UInt8
  stdout : Array UInt8 := #[]
  stderr : Array UInt8 := #[]
  deriving DecidableEq, Repr

/-- A program that has been run, before its trace is written. -/
structure Session where
  /-- The log lines from before the run. -/
  warnings : String
  machine : Machine
  result : Except MachineError UInt64

namespace Invocation

open CommandLine

/-- The outcome of a failure. -/
def failed (log context : String) (causes : List String) : Outcome where
  exitCode := 1
  stderr := (log ++ report context causes).toUTF8.data

/-- The log line about an entry that does not count, given what was read from the source itself. -/
def warnings (inv : Invocation) (own : Program) : String :=
  match inv.entry with
  | some entry => if own.hasStart then ignoredEntryLine entry else ""
  | none => ""

/-- Loads the source and runs it. -/
def start (inv : Invocation) (source : Except FileError String) : Except Outcome Session := do
  let source ← source.mapError fun error =>
    failed "" ("Error reading file '" ++ inv.file ++ "'") [error.message]
  let notAssembled (error : LaunchError) :=
    failed "" ("Failed to assemble '" ++ inv.file ++ "'") error.causes
  let own ← (Program.ofSource source).mapError fun error => notAssembled (.source error)
  let p ← (own.complete source inv.options).mapError notAssembled
  let warnings := inv.warnings own
  let (machine, entry) ← ((p.withSourceFile inv.file).prepare inv.options).mapError fun error =>
    failed warnings error.message (error.causes.drop 1)
  let (machine, result) := machine.runFrom entry inv.maxSteps
  pure { warnings, machine, result }

/-- Reports on a run, given whether its trace could be written. What the program printed comes
before any report. -/
def conclude (inv : Invocation) (session : Session) (traceWritten : Except FileError Unit) :
    Outcome :=
  let m := session.machine
  let log :=
    if inv.debugInstructions then
      String.join (m.trace.toList.map (instructionLine m.program))
    else ""
  let printed := (session.warnings ++ log).toUTF8.data ++ m.output.stderr
  let finish (exitCode : UInt8) (text : String) : Outcome :=
    { exitCode, stdout := m.output.stdout, stderr := printed ++ text.toUTF8.data }
  match traceWritten, session.result with
  | .error error, _ =>
    finish 1
      (report ("Failed to write trace to '" ++ inv.traceFile.getD "" ++ "'")
        ["VM I/O error: " ++ error.message, error.message])
  | .ok (), .error error =>
    finish 1 (report ("Execution of '" ++ inv.file ++ "' failed") error.causes)
  | .ok (), .ok status =>
    finish status.toUInt8
      (if inv.verbose || inv.debugInstructions then exitLine status m.steps else "")

end Invocation

end X64
