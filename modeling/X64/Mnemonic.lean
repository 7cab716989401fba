import X64.Flags

/-!
# Mnemonics

The instructions that the machine knows, with their names and the number of their operands.
-/

namespace X64

/-- The name of an operation. -/
inductive Mnemonic where
  | push
  | pop
  | mov
  | add
  | sub
  | cmp
  | and
  | or
  | xor
  | shl
  | shr
  | jmp
  | jumpIf (condition : Condition)
  | call
  | ret
  | nop
  | syscall
  deriving DecidableEq, Repr, Inhabited

namespace Mnemonic

/-- The mnemonics. -/
def all : List Mnemonic :=
  [.push, .pop, .mov, .add, .sub, .cmp, .and, .or, .xor, .shl, .shr, .jmp, .jumpIf .equal,
    .jumpIf .notEqual, .jumpIf .greaterOrEqual, .jumpIf .less, .jumpIf .greater,
    .jumpIf .lessOrEqual, .call, .ret, .nop, .syscall]

/-- The name that is printed. -/
def name : Mnemonic → String
  | .push => "push"
  | .pop => "pop"
  | .mov => "mov"
  | .add => "add"
  | .sub => "sub"
  | .cmp => "cmp"
  | .and => "and"
  | .or => "or"
  | .xor => "xor"
  | .shl => "shl"
  | .shr => "shr"
  | .jmp => "jmp"
  | .jumpIf .equal => "je"
  | .jumpIf .notEqual => "jne"
  | .jumpIf .greaterOrEqual => "jge"
  | .jumpIf .less => "jl"
  | .jumpIf .greater => "jg"
  | .jumpIf .lessOrEqual => "jle"
  | .call => "call"
  | .ret => "ret"
  | .nop => "nop"
  | .syscall => "syscall"

/-- Further names that are read but never printed. -/
def aliases : List (String × Mnemonic) :=
  [("jz", .jumpIf .equal), ("jnz", .jumpIf .notEqual), ("sal", .shl)]

/-- The mnemonics under the characters of each of their names. -/
def named : List (List Char × Mnemonic) :=
  all.map (fun m => (m.name.toList, m)) ++ aliases.map fun (name, m) => (name.toList, m)

/-- The mnemonic with the given name. The case of the letters `A` to `Z` does not matter. -/
def ofName? (name : List Char) : Option Mnemonic :=
  named.lookup (name.map Char.toLower)

/-- The mnemonic that is printed under exactly this name. -/
def ofPrinted? (name : String) : Option Mnemonic :=
  all.find? fun m => m.name == name

/-- The number of operands. -/
def arity : Mnemonic → Nat
  | .ret | .nop | .syscall => 0
  | .push | .pop | .jmp | .jumpIf _ | .call => 1
  | .mov | .add | .sub | .cmp | .and | .or | .xor | .shl | .shr => 2

/-- Whether the operand is a label. -/
def takesLabel : Mnemonic → Bool
  | .jmp | .jumpIf _ | .call => true
  | _ => false

/-- The condition of a conditional jump. -/
def condition? : Mnemonic → Option Condition
  | .jumpIf c => some c
  | _ => none

theorem mem_all (m : Mnemonic) : m ∈ all := by
  cases m with
  | jumpIf c => cases c <;> decide
  | _ => decide

@[simp] theorem ofPrinted?_name (m : Mnemonic) : ofPrinted? m.name = some m := by
  cases m with
  | jumpIf c => cases c <;> decide
  | _ => decide

theorem arity_eq_one_of_takesLabel {m : Mnemonic} (h : m.takesLabel = true) : m.arity = 1 := by
  cases m <;> first | rfl | exact absurd h (by decide)

end Mnemonic

end X64
