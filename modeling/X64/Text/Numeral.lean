/-!
# Numerals

Numbers are written in decimal, or in lower-case hexadecimal after `0x`. They are read with an
optional plus sign, and a machine word is a number below `2 ^ 64`.
-/

namespace X64.Text

/-- The decimal digits of a number. -/
def decimal (n : Nat) : String := String.ofList (Nat.toDigits 10 n)

/-- The decimal digits of an integer, after a minus sign if it is negative. -/
def integer (i : Int) : String :=
  if i < 0 then "-" ++ decimal i.natAbs else decimal i.natAbs

/-- The hexadecimal digits of a number, after `0x`. -/
def hexadecimal (n : Nat) : String := "0x" ++ String.ofList (Nat.toDigits 16 n)

/-- The value of a digit in bases up to sixteen. -/
def digitValue? (base : Nat) (c : Char) : Option Nat :=
  let value :=
    if '0' ≤ c ∧ c ≤ '9' then c.toNat - '0'.toNat
    else if 'a' ≤ c ∧ c ≤ 'f' then c.toNat - 'a'.toNat + 10
    else if 'A' ≤ c ∧ c ≤ 'F' then c.toNat - 'A'.toNat + 10
    else base
  if value < base then some value else none

/-- The number with the given digits, of which there must be at least one. -/
def digits? (base : Nat) (cs : List Char) : Option Nat :=
  if cs.isEmpty then none
  else cs.foldlM (fun n c => (digitValue? base c).map fun d => base * n + d) 0

/-- The machine word written as digits after an optional plus sign. -/
def word? (base : Nat) (cs : List Char) : Option UInt64 := do
  let n ← digits? base (if cs.head? = some '+' then cs.tail else cs)
  if n < UInt64.size then some (UInt64.ofNat n) else none

end X64.Text
