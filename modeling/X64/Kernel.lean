import X64.Program

/-!
# Kernels

A kernel numbers the system calls. It also fixes the routine at which a program starts that does not
say so itself.
-/

namespace X64

/-- A system call that the machine can serve. -/
inductive Syscall where
  | exit
  | write
  deriving DecidableEq, Repr, Inhabited

/-- The name of a system call. -/
def Syscall.name : Syscall → String
  | .exit => "exit"
  | .write => "write"

/-- The kernel that a program was written for. -/
inductive Kernel where
  | linux
  | darwin
  deriving DecidableEq, Repr, Inhabited

namespace Kernel

/-- The name of a kernel. -/
def name : Kernel → String
  | .linux => "linux"
  | .darwin => "darwin"

/-- The kernel with the given name. The case of the letters `A` to `Z` does not matter. -/
def ofName? (name : List Char) : Option Kernel :=
  [linux, darwin].find? fun k => k.name.toList == name.map Char.toLower

/-- The wording of the error about a name that no kernel has. -/
def unknownMessage (name : String) : String := "Invalid kernel: " ++ name

/-- The number of a system call. -/
def number : Kernel → Syscall → UInt64
  | .linux, .write => 1
  | .linux, .exit => 60
  | .darwin, .exit => 1
  | .darwin, .write => 4

/-- The bit that Darwin sets in the numbers of its Unix calls. -/
def darwinUnixClass : UInt64 := 0x2000000

/-- The part of a number that selects the system call. -/
def selector : Kernel → UInt64 → UInt64
  | .linux, id => id
  | .darwin, id => id &&& ~~~darwinUnixClass

/-- The system call with the given number. Darwin takes its numbers with the class bit or without
it. -/
def syscall? (k : Kernel) (id : UInt64) : Option Syscall :=
  if k.selector id = k.number .exit then some .exit
  else if k.selector id = k.number .write then some .write
  else none

/-- The source of a routine that calls a label and exits with what it returns. -/
def startRoutine (k : Kernel) (label : String) : String :=
  Program.startLabel ++ ":\n\tcall " ++ label ++ "\n\tmov rdi, rax\n\tmov rax, " ++
    Text.decimal (k.number .exit).toNat ++ "\n\tsyscall\n"

@[simp] theorem syscall?_number (k : Kernel) (c : Syscall) : k.syscall? (k.number c) = some c := by
  cases k <;> cases c <;> decide

end Kernel

end X64
