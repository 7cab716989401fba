import X64.Kernel
import X64.Memory
import X64.State

/-!
# System calls

The number of a call is in `rax`, its arguments are in `rdi`, `rsi` and `rdx`. A program can write
to its two output streams and it can exit.
-/

namespace X64

/-- An output stream of a program. -/
inductive Stream where
  | stdout
  | stderr
  deriving DecidableEq, Repr

/-- The stream with the given file descriptor. -/
def Stream.ofDescriptor? (fd : UInt64) : Option Stream :=
  if fd = 1 then some .stdout else if fd = 2 then some .stderr else none

/-- The bytes that a program has written. -/
structure Output where
  stdout : Array UInt8 := #[]
  stderr : Array UInt8 := #[]
  deriving DecidableEq, Repr, Inhabited

/-- Adds bytes at the end of a stream. -/
def Output.append (o : Output) (stream : Stream) (bytes : Array UInt8) : Output :=
  match stream with
  | .stdout => { o with stdout := o.stdout ++ bytes }
  | .stderr => { o with stderr := o.stderr ++ bytes }

/-- Why a system call fails. -/
inductive SyscallError where
  | unknown (kernel : Kernel) (id : UInt64)
  | badFileDescriptor (fd : UInt64)
  | memory (error : OutOfBounds)
  deriving DecidableEq, Repr

namespace SyscallError

/-- The wording of the error. -/
def message : SyscallError → String
  | .unknown k id => "Unknown " ++ k.name ++ " syscall number " ++ Text.hexadecimal id.toNat
  | .badFileDescriptor fd => "Bad file descriptor " ++ Text.decimal fd.toNat
  | .memory error => "Syscall memory error: " ++ error.message

/-- The wording of the error and of the errors behind it, the outermost first. -/
def causes (e : SyscallError) : List String :=
  match e with
  | .memory error => [e.message, error.message]
  | _ => [e.message]

end SyscallError

/-- What a system call does: it writes bytes to a stream and goes on with the next state, or it ends
the program. -/
inductive SyscallEffect where
  | write (stream : Stream) (bytes : Array UInt8) (state : State)
  | exit (status : UInt64)
  deriving DecidableEq, Repr

/-- The effect of the system call that the registers ask for. -/
def Kernel.serve (k : Kernel) (memory : Memory) (state : State) :
    Except SyscallError SyscallEffect :=
  match k.syscall? (state.get .rax) with
  | none => .error (.unknown k (state.get .rax))
  | some .exit => .ok (.exit (state.get .rdi))
  | some .write =>
    match Stream.ofDescriptor? (state.get .rdi) with
    | none => .error (.badFileDescriptor (state.get .rdi))
    | some stream =>
      let length := state.get .rdx
      match memory.readBytes (state.get .rsi) length.toNat with
      | .error error => .error (.memory error)
      | .ok bytes => .ok (.write stream bytes (state.set .rax length).advance)

end X64
