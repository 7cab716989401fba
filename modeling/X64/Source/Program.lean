import X64.Program
import X64.Source.Operand

/-!
# Reading programs

A source is read in two passes over its lines. The first numbers the instructions and collects the
labels, so a branch may name a label that is defined further down. The second reads the statements.
-/

namespace X64

/-- Why a source is not a program. -/
inductive SourceError where
  | unknownMnemonic (line : Nat) (name : String)
  | arity (line : Nat) (mnemonic : Mnemonic) (found : Nat)
  | invalidOperand (line : Nat) (text : String) (error : Source.OperandError)
  | undefinedLabel (line : Nat) (name : String)
  | duplicateLabel (line : Nat) (name : String)
  deriving DecidableEq, Repr

namespace SourceError

/-- The number of the line at fault. -/
def line : SourceError → Nat
  | .unknownMnemonic line _ => line
  | .arity line _ _ => line
  | .invalidOperand line _ _ => line
  | .undefinedLabel line _ => line
  | .duplicateLabel line _ => line

/-- What is wrong with the line. -/
def detail : SourceError → String
  | .unknownMnemonic _ name => "unknown instruction '" ++ name ++ "'"
  | .arity _ m found =>
    "'" ++ m.name ++ "' expects " ++ Text.decimal m.arity ++ " operand(s), got " ++
      Text.decimal found
  | .invalidOperand _ text error => "invalid operand '" ++ text ++ "': " ++ error.message
  | .undefinedLabel _ name => "undefined label '" ++ name ++ "'"
  | .duplicateLabel _ name => "duplicate label '" ++ name ++ "'"

/-- The wording of the error. -/
def message (e : SourceError) : String := "line " ++ Text.decimal e.line ++ ": " ++ e.detail

end SourceError

namespace Source

/-- Adds the labels of one line, which stand before the instruction with the given index. -/
def defineLabels (index : Nat) (line : Line) (labels : Labels) : Except SourceError Labels :=
  line.labels.foldlM
    (fun labels name =>
      let name := String.ofList name
      if (labels.get? name).isSome then .error (.duplicateLabel line.number name)
      else .ok (labels.insert name index))
    labels

/-- Collects the labels of lines of which the first instruction has the given index. -/
def collectLabels : Nat → List Line → Labels → Except SourceError Labels
  | _, [], labels => .ok labels
  | index, line :: rest, labels => do
    let labels ← defineLabels index line labels
    collectLabels (if line.isInstruction then index + 1 else index) rest labels

/-- Reads an instruction that stands on the given line. -/
def instruction? (labels : Labels) (line : Nat) (name : List Char) (operands : List (List Char)) :
    Except SourceError Instruction :=
  match Mnemonic.ofName? name with
  | none => .error (.unknownMnemonic line (String.ofList name))
  | some m =>
    if operands.length ≠ m.arity then .error (.arity line m operands.length)
    else do
      let operands ← operands.mapM fun text =>
        (operand? labels m text).mapError fun
          | .invalid error => .invalidOperand line (String.ofList text) error
          | .undefined => .undefinedLabel line (String.ofList text)
      pure { mnemonic := m, operands, line }

/-- The instructions of a list of lines. -/
def instructions? (labels : Labels) : List Line → Except SourceError (List Instruction)
  | [] => .ok []
  | line :: rest =>
    match line.statement with
    | some (.instruction name operands) => do
      let first ← instruction? labels line.number name operands
      let others ← instructions? labels rest
      pure (first :: others)
    | _ => instructions? labels rest

/-- The directive on a line. -/
def Line.directive? (line : Line) : Option Directive :=
  match line.statement with
  | some (.directive name args) =>
    some { name := String.ofList name, args := args.map String.ofList, line := line.number }
  | _ => none

/-- The program that a list of lines stands for. -/
def assemble (lines : List Line) : Except SourceError Program := do
  let labels ← collectLabels 0 lines .empty
  let instructions ← instructions? labels lines
  pure
    { instructions := instructions.toArray
      labels
      directives := lines.filterMap Line.directive? }

end Source

/-- Reads a program in Intel syntax. -/
def Program.ofSource (source : String) : Except SourceError Program :=
  Source.assemble (Source.Line.ofSource source.toList)

end X64
