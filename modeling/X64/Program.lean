import X64.Instruction
import X64.Labels

/-!
# Programs

A program is what a source becomes once it is read: instructions, which are counted from zero,
labels, which name places between them, and directives, which a run does not look at.
-/

namespace X64

/-- An assembler directive such as `.globl main`. Directives do not affect a run. -/
structure Directive where
  name : String
  args : List String
  line : Nat
  deriving DecidableEq, Repr, Inhabited

/-- A program: the instructions and directives in source order, and the labels, each with the index
of the instruction it stands before. -/
structure Program where
  instructions : Array Instruction := #[]
  labels : Labels := .empty
  directives : List Directive := []
  sourceFile : Option String := none
  deriving DecidableEq, Repr, Inhabited

namespace Program

/-- The label at which a run starts. -/
def startLabel : String := "_start"

/-- The number of instructions. -/
def size (p : Program) : Nat := p.instructions.size

/-- The index of the instruction that a label stands before. -/
def label? (p : Program) (name : String) : Option Nat := p.labels.get? name

/-- Whether the program says itself where a run starts. -/
def hasStart (p : Program) : Bool := (p.label? startLabel).isSome

/-- Records the name of the file that the program came from. -/
def withSourceFile (p : Program) (file : String) : Program := { p with sourceFile := some file }

end Program

end X64
