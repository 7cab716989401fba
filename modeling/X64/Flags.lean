import X64.Width

/-!
# Status flags

Arithmetic leaves four flags behind, and the conditional jumps read them through one of six signed
conditions.
-/

namespace X64

/-- The status flags. `zero` and `sign` describe the last result. `carry` says that it left the
unsigned range of its width, `overflow` that it left the signed range. -/
structure Flags where
  zero : Bool := false
  sign : Bool := false
  carry : Bool := false
  overflow : Bool := false
  deriving DecidableEq, Repr, Inhabited

/-- The flags of a result of the given width that neither carried nor overflowed. -/
def Flags.ofResult (w : Width) (result : UInt64) : Flags where
  zero := w.truncate result == 0
  sign := w.isNegative result

/-- The condition of a conditional jump, about the operands of the comparison before it. -/
inductive Condition where
  | equal
  | notEqual
  | greaterOrEqual
  | less
  | greater
  | lessOrEqual
  deriving DecidableEq, Repr, Inhabited

namespace Condition

/-- Whether the condition holds. Signed order is the sign flag corrected by the overflow flag. -/
def holds : Condition → Flags → Bool
  | .equal, f => f.zero
  | .notEqual, f => !f.zero
  | .greaterOrEqual, f => f.sign == f.overflow
  | .less, f => f.sign != f.overflow
  | .greater, f => !f.zero && f.sign == f.overflow
  | .lessOrEqual, f => f.zero || f.sign != f.overflow

/-- The condition that holds exactly when this one does not. -/
def negate : Condition → Condition
  | .equal => .notEqual
  | .notEqual => .equal
  | .greaterOrEqual => .less
  | .less => .greaterOrEqual
  | .greater => .lessOrEqual
  | .lessOrEqual => .greater

theorem holds_negate (c : Condition) (f : Flags) : c.negate.holds f = !c.holds f := by
  obtain ⟨z, s, _, o⟩ := f
  cases c <;> cases z <;> cases s <;> cases o <;> rfl

end Condition

end X64
