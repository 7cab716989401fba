import X64.CommandLine

/-!
# The program

Runs a source file and exits with the status of the program in it.
-/

open X64 X64.CommandLine

/-- The cause of a failed file access. -/
def fileErrorOf (e : IO.Error) : FileError :=
  match e with
  | .noFileOrDirectory .. => .notFound
  | .permissionDenied .. => .permissionDenied
  | .inappropriateType _ code _ => if code = 21 then .isDirectory else .notDirectory
  | e => .other (toString e)

/-- Writes bytes to a stream. -/
def writeBytes (stream : IO.FS.Stream) (bytes : Array UInt8) : IO Unit := do
  stream.write ⟨bytes⟩
  stream.flush

/-- Runs the invocation with the given arguments. -/
def main (args : List String) : IO UInt32 := do
  let some inv := Invocation.ofArguments? args
    | do
      IO.eprintln "usage: [OPTIONS] FILE"
      return 2
  let source ←
    try decodeSource <$> IO.FS.readBinFile inv.file
    catch e => pure (.error (fileErrorOf e))
  let outcome ←
    match inv.start source with
    | .error outcome => pure outcome
    | .ok session => do
      let written ←
        match inv.traceFile with
        | none => pure (.ok ())
        | some path =>
          try
            IO.FS.writeFile path session.machine.traceText
            pure (.ok ())
          catch e => pure (.error (fileErrorOf e))
      pure (inv.conclude session written)
  writeBytes (← IO.getStdout) outcome.stdout
  writeBytes (← IO.getStderr) outcome.stderr
  return outcome.exitCode.toUInt32
