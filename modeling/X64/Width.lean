/-!
# Operand widths

A register view or a memory access has one of four widths. Words are kept as `UInt64`; a width says
how many of the low bits count.
-/

namespace X64

/-- The size of a register view or of a memory access. -/
inductive Width where
  | byte
  | word
  | dword
  | qword
  deriving DecidableEq, Repr, Inhabited

namespace Width

/-- The four widths, from the narrowest to the widest. -/
def all : List Width := [.byte, .word, .dword, .qword]

/-- The number of bytes. -/
def bytes : Width → Nat
  | .byte => 1
  | .word => 2
  | .dword => 4
  | .qword => 8

/-- The number of bits. -/
def bits (w : Width) : Nat := 8 * w.bytes

/-- The number of words of the width. Arithmetic at the width is modulo this number. -/
def modulus : Width → Nat
  | .byte => 0x100
  | .word => 0x10000
  | .dword => 0x100000000
  | .qword => 0x10000000000000000

/-- The word whose low `w.bits` bits are set. -/
def mask : Width → UInt64
  | .byte => 0xff
  | .word => 0xffff
  | .dword => 0xffffffff
  | .qword => 0xffffffffffffffff

/-- The word whose only set bit is the top bit of the width. -/
def signBit : Width → UInt64
  | .byte => 0x80
  | .word => 0x8000
  | .dword => 0x80000000
  | .qword => 0x8000000000000000

/-- The low bits of a word, the others cleared. -/
def truncate (w : Width) (v : UInt64) : UInt64 := v &&& w.mask

/-- Whether the top bit of the width is set. -/
def isNegative (w : Width) (v : UInt64) : Bool := v &&& w.signBit != 0

/-- The low bits of a word, read as a two's-complement number. -/
def signed (w : Width) (v : UInt64) : Int := Int.bmod v.toNat w.modulus

/-- The keyword of the width in front of `ptr`. -/
def keyword : Width → String
  | .byte => "byte"
  | .word => "word"
  | .dword => "dword"
  | .qword => "qword"

/-- The width with the given keyword, which is matched exactly. -/
def ofKeyword? (keyword : String) : Option Width :=
  all.find? fun w => w.keyword == keyword

theorem mem_all (w : Width) : w ∈ all := by
  cases w <;> decide

theorem bytes_pos (w : Width) : 0 < w.bytes := by
  cases w <;> decide

theorem bytes_le (w : Width) : w.bytes ≤ 8 := by
  cases w <;> decide

theorem modulus_pos (w : Width) : 0 < w.modulus := by
  cases w <;> decide

theorem toNat_mask (w : Width) : w.mask.toNat = w.modulus - 1 := by
  cases w <;> rfl

theorem toNat_truncate (w : Width) (v : UInt64) : (w.truncate v).toNat = v.toNat % w.modulus := by
  rw [truncate, UInt64.toNat_and, toNat_mask]
  cases w with
  | byte => exact Nat.and_two_pow_sub_one_eq_mod v.toNat 8
  | word => exact Nat.and_two_pow_sub_one_eq_mod v.toNat 16
  | dword => exact Nat.and_two_pow_sub_one_eq_mod v.toNat 32
  | qword => exact Nat.and_two_pow_sub_one_eq_mod v.toNat 64

@[simp] theorem ofKeyword?_keyword (w : Width) : ofKeyword? w.keyword = some w := by
  cases w <;> decide

end Width

end X64
