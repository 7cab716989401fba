import X64.Flags
import X64.Register

/-!
# The register file

A state holds the seventeen registers and the flags. Registers are read and written through views:
a dword write clears the upper half of its register, a word or byte write keeps the other bits.
`rip` counts instructions, not bytes.
-/

namespace X64

/-- The registers and the flags. -/
structure State where
  registers : Vector UInt64 17 := Vector.replicate 17 0
  flags : Flags := {}
  deriving DecidableEq, Repr, Inhabited

namespace State

/-- The whole value of a register. -/
def get (s : State) (r : Register) : UInt64 := s.registers[r.index]

/-- Replaces the whole value of a register. -/
def set (s : State) (r : Register) (value : UInt64) : State :=
  { s with registers := s.registers.set r.index value }

/-- The value of a view, zero-extended. -/
def read (s : State) (v : View) : UInt64 := v.width.truncate (s.get v.register)

/-- The value that a register has after `value` is written to it at a width. -/
def merge (w : Width) (old value : UInt64) : UInt64 :=
  match w with
  | .qword => value
  | .dword => w.truncate value
  | .word | .byte => (old &&& ~~~w.mask) ||| w.truncate value

/-- Writes a view. -/
def write (s : State) (v : View) (value : UInt64) : State :=
  s.set v.register (merge v.width (s.get v.register) value)

/-- The index of the next instruction. -/
def rip (s : State) : UInt64 := s.get .rip

/-- The address of the top of the stack. -/
def rsp (s : State) : UInt64 := s.get .rsp

/-- Moves on to the next instruction. -/
def advance (s : State) : State := s.set .rip (s.rip + 1)

/-- Moves to the instruction with the given index. -/
def jump (s : State) (target : Nat) : State := s.set .rip (UInt64.ofNat target)

/-- Replaces the flags. -/
def withFlags (s : State) (flags : Flags) : State := { s with flags }

@[simp] theorem get_set_self (s : State) (r : Register) (value : UInt64) :
    (s.set r value).get r = value := by
  simp [get, set]

theorem get_set_of_ne (s : State) {r q : Register} (h : q ≠ r) (value : UInt64) :
    (s.set r value).get q = s.get q := by
  have hne : (r.index : Nat) ≠ q.index := fun e => h (Register.index_injective (Fin.ext e.symm))
  simp [get, set, hne]

@[simp] theorem flags_set (s : State) (r : Register) (value : UInt64) :
    (s.set r value).flags = s.flags := rfl

@[simp] theorem flags_write (s : State) (v : View) (value : UInt64) :
    (s.write v value).flags = s.flags := rfl

@[simp] theorem flags_withFlags (s : State) (flags : Flags) : (s.withFlags flags).flags = flags :=
  rfl

@[simp] theorem get_withFlags (s : State) (flags : Flags) (r : Register) :
    (s.withFlags flags).get r = s.get r := rfl

/-- Two states with the same registers and flags are equal. -/
theorem ext_get {s t : State} (h : ∀ r, s.get r = t.get r) (hf : s.flags = t.flags) : s = t := by
  have hr : s.registers = t.registers := by
    apply Vector.ext
    intro i hi
    obtain ⟨r, _, hr⟩ := Register.exists_index ⟨i, hi⟩
    obtain rfl : r.index.val = i := congrArg Fin.val hr
    exact h r
  cases s
  cases t
  simp_all

end State

end X64
