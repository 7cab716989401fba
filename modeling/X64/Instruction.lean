import X64.Mnemonic
import X64.Operand

/-!
# Instructions

An instruction is a mnemonic with its operands. Nothing here asks for the right number or kind of
operands; an instruction that does not have them fails when it is run.
-/

namespace X64

/-- An instruction and the number of the source line it stands on. -/
structure Instruction where
  mnemonic : Mnemonic
  operands : List Operand
  line : Nat
  deriving DecidableEq, Repr, Inhabited

namespace Instruction

/-- The text of an instruction: the mnemonic, then the operands separated by commas. -/
def render (i : Instruction) : String :=
  match i.operands with
  | [] => i.mnemonic.name
  | operands => i.mnemonic.name ++ " " ++ String.intercalate ", " (operands.map Operand.render)

/-- The same instruction without a place in a source. -/
def unplaced (i : Instruction) : Instruction := { i with line := 0 }

end Instruction

end X64
