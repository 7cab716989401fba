import X64.Json
import X64.Kernel
import X64.State

/-!
# Machine state and kernels as JSON
-/

namespace X64

/-- The flags as an object of four booleans. -/
def Flags.toJson (f : Flags) : Json :=
  .object
    [("zf", .bool f.zero), ("sf", .bool f.sign), ("cf", .bool f.carry), ("of", .bool f.overflow)]

/-- The registers in the order of the register file, and the flags. -/
def State.toJson (s : State) : Json :=
  .object
    [("registers", .array (s.registers.toList.map fun v => .natural v.toNat)),
      ("flags", s.flags.toJson)]

/-- A kernel as its name. -/
def Kernel.toJson (k : Kernel) : Json := .string k.name

end X64
