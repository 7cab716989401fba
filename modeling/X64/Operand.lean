import X64.State
import X64.Text.Numeral

/-!
# Operands

An operand is a register view, an immediate number, a reference to memory or the label of a branch.
-/

namespace X64

/-- A memory operand `[base + displacement]`. Without a width it takes the width of the other
operand. -/
structure Reference where
  width : Option Width
  base : Option Register
  displacement : Int64
  deriving DecidableEq, Repr, Inhabited

namespace Reference

/-- The address in a given state, modulo `2 ^ 64`. -/
def address (m : Reference) (s : State) : UInt64 :=
  (match m.base with
    | some r => s.get r
    | none => 0) + m.displacement.toUInt64

/-- The part between the brackets. -/
def renderSum (m : Reference) : String :=
  let d := m.displacement.toInt
  match m.base with
  | none => Text.integer d
  | some r =>
    if d = 0 then r.name
    else if d < 0 then r.name ++ " - " ++ Text.decimal d.natAbs
    else r.name ++ " + " ++ Text.decimal d.natAbs

/-- The text of a reference. -/
def render (m : Reference) : String :=
  (match m.width with
    | some w => w.keyword ++ " ptr "
    | none => "") ++ "[" ++ m.renderSum ++ "]"

end Reference

/-- An operand of an instruction. A label comes with the index of the instruction it stands for. -/
inductive Operand where
  | register (view : View)
  | immediate (value : Int64)
  | memory (reference : Reference)
  | label (name : String) (target : Nat)
  deriving DecidableEq, Repr, Inhabited

namespace Operand

/-- The width that the operand itself fixes. -/
def width? : Operand → Option Width
  | .register v => some v.width
  | .memory m => m.width
  | .immediate _ | .label .. => none

/-- Whether the operand refers to memory. -/
def isMemory : Operand → Bool
  | .memory _ => true
  | _ => false

/-- The text of an operand. -/
def render : Operand → String
  | .register v => v.render
  | .immediate value => Text.integer value.toInt
  | .memory m => m.render
  | .label name _ => name

end Operand

end X64
