import X64.Flags

/-!
# Arithmetic on words

The operations work at a width: operands are truncated to it, and so is the result. Addition and
subtraction set all flags. The logical operations clear carry and overflow. A shift leaves the last
bit that it shifted out in the carry flag and clears overflow.
-/

namespace X64.Alu

/-- What an operation computes. -/
structure Result where
  value : UInt64
  flags : Flags
  deriving DecidableEq, Repr

/-- An operation on two words at a width. -/
abbrev Operation := Width → UInt64 → UInt64 → Result

/-- The result of an operation that neither carries nor overflows. -/
def plain (w : Width) (value : UInt64) : Result where
  value := w.truncate value
  flags := Flags.ofResult w value

/-- The sum. It overflows when operands of one sign give the other sign. -/
def add : Operation := fun w a b =>
  let a := w.truncate a
  let b := w.truncate b
  let sum := w.truncate (a + b)
  { value := sum
    flags :=
      { Flags.ofResult w sum with
        carry := decide (w.mask.toNat < a.toNat + b.toNat)
        overflow := w.isNegative a == w.isNegative b && w.isNegative sum != w.isNegative a } }

/-- The difference. It overflows when operands of different signs give not the sign of the first. -/
def sub : Operation := fun w a b =>
  let a := w.truncate a
  let b := w.truncate b
  let difference := w.truncate (a - b)
  { value := difference
    flags :=
      { Flags.ofResult w difference with
        carry := decide (a < b)
        overflow :=
          w.isNegative a != w.isNegative b && w.isNegative difference != w.isNegative a } }

/-- The bits set in both words. -/
def and : Operation := fun w a b => plain w (a &&& b)

/-- The bits set in one word or in both. -/
def or : Operation := fun w a b => plain w (a ||| b)

/-- The bits set in exactly one of the words. -/
def xor : Operation := fun w a b => plain w (a ^^^ b)

/-- The part of a shift count that counts: six bits for a qword, five bits otherwise. -/
def shiftCount (w : Width) (count : UInt64) : UInt64 :=
  count &&& (if w = .qword then 0x3f else 0x1f)

/-- The bit of a word at a position. -/
def bit (v i : UInt64) : Bool := (v >>> i) &&& 1 == 1

/-- A shift to the left by one place or more. -/
def shiftLeft : Operation := fun w v count =>
  let v := w.truncate v
  let bits := UInt64.ofNat w.bits
  let result := w.truncate (v <<< count)
  { value := result
    flags :=
      { Flags.ofResult w result with
        carry := decide (count ≤ bits) && bit v (bits - count) } }

/-- A shift to the right by one place or more, zeros coming in at the top. -/
def shiftRight : Operation := fun w v count =>
  let v := w.truncate v
  let bits := UInt64.ofNat w.bits
  let result := if bits ≤ count then 0 else v >>> count
  { value := result
    flags :=
      { Flags.ofResult w result with
        carry := decide (count ≤ bits) && bit v (count - 1) } }

end X64.Alu
