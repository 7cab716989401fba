import X64.Text.Numeral
import X64.Width

/-!
# Memory

Memory is a row of bytes that starts at address zero. Words are stored with the low byte first. An
access that does not lie inside the row fails and changes nothing; addresses never wrap around.
-/

namespace X64

/-! ## Words as bytes -/

/-- The word with the given bytes, the low byte first. -/
def wordOfBytes : List UInt8 → UInt64
  | [] => 0
  | b :: bs => b.toUInt64 + 256 * wordOfBytes bs

/-- The low `n` bytes of a word, the low byte first. -/
def bytesOfWord : Nat → UInt64 → List UInt8
  | 0, _ => []
  | n + 1, v => v.toUInt8 :: bytesOfWord n (v >>> 8)

@[simp] theorem length_bytesOfWord (n : Nat) (v : UInt64) : (bytesOfWord n v).length = n := by
  induction n generalizing v with
  | zero => rfl
  | succ n ih => simp [bytesOfWord, ih]

/-! ## The memory of a machine -/

/-- A flat memory. -/
structure Memory where
  bytes : Array UInt8
  deriving DecidableEq, Repr, Inhabited

/-- An access of `length` bytes at `address` that does not fit into `size` bytes of memory. -/
structure OutOfBounds where
  address : UInt64
  length : Nat
  size : Nat
  deriving DecidableEq, Repr, Inhabited

/-- The wording of the error. -/
def OutOfBounds.message (e : OutOfBounds) : String :=
  "Memory access out of bounds: " ++ Text.decimal e.length ++ " byte(s) at address " ++
    Text.hexadecimal e.address.toNat ++ " (memory size " ++ Text.hexadecimal e.size ++ ")"

namespace Memory

/-- The number of bytes of a memory, when nothing else is asked for. -/
def defaultSize : Nat := 65536

/-- A memory of zero bytes. -/
def zeroed (size : Nat) : Memory := ⟨Array.replicate size 0⟩

/-- The number of bytes. -/
def size (m : Memory) : Nat := m.bytes.size

/-- Whether all of the `length` bytes from `address` on lie inside memory. -/
def InBounds (m : Memory) (address : UInt64) (length : Nat) : Prop :=
  address.toNat + length ≤ m.size

instance (m : Memory) (address : UInt64) (length : Nat) : Decidable (m.InBounds address length) :=
  inferInstanceAs (Decidable (_ ≤ _))

/-- Fails for an access that is not in bounds. -/
def check (m : Memory) (address : UInt64) (length : Nat) : Except OutOfBounds Unit :=
  if m.InBounds address length then .ok () else .error { address, length, size := m.size }

/-- The `length` bytes from `address` on. -/
def readBytes (m : Memory) (address : UInt64) (length : Nat) :
    Except OutOfBounds (Array UInt8) := do
  m.check address length
  pure (m.bytes.extract address.toNat (address.toNat + length))

/-- The word of the given width at `address`, zero-extended. -/
def read (m : Memory) (address : UInt64) (w : Width) : Except OutOfBounds UInt64 := do
  let bytes ← m.readBytes address w.bytes
  pure (wordOfBytes bytes.toList)

/-- Puts bytes into a row from an index on. Bytes that fall outside are dropped. -/
def put (row : Array UInt8) : Nat → List UInt8 → Array UInt8
  | _, [] => row
  | i, b :: bs => put (row.setIfInBounds i b) (i + 1) bs

/-- Overwrites the bytes from `address` on without a check. -/
def store (m : Memory) (address : UInt64) (bs : List UInt8) : Memory :=
  ⟨put m.bytes address.toNat bs⟩

/-- Overwrites the bytes from `address` on. -/
def writeBytes (m : Memory) (address : UInt64) (bs : List UInt8) : Except OutOfBounds Memory := do
  m.check address bs.length
  pure (m.store address bs)

/-- Overwrites the word of the given width at `address` with the low bytes of `value`. -/
def write (m : Memory) (address : UInt64) (value : UInt64) (w : Width) :
    Except OutOfBounds Memory :=
  m.writeBytes address (bytesOfWord w.bytes value)

@[simp] theorem size_zeroed (size : Nat) : (zeroed size).size = size := by
  simp [zeroed, Memory.size]

@[simp] theorem size_put (row : Array UInt8) (i : Nat) (bs : List UInt8) :
    (put row i bs).size = row.size := by
  induction bs generalizing row i with
  | nil => rfl
  | cons b bs ih => simp [put, ih]

/-- A byte is the one put there last, or the old one where none was put. -/
theorem getElem?_put (row : Array UInt8) (i : Nat) (bs : List UInt8) (j : Nat) :
    (put row i bs)[j]? =
      if i ≤ j ∧ j < i + bs.length ∧ j < row.size then bs[j - i]? else row[j]? := by
  induction bs generalizing row i with
  | nil =>
    have hout : ¬(i ≤ j ∧ j < i + 0 ∧ j < row.size) := by omega
    simp only [put, List.length_nil, if_neg hout]
  | cons b bs ih =>
    rw [put, ih]
    simp only [Array.size_setIfInBounds, Array.getElem?_setIfInBounds, List.length_cons]
    by_cases hij : i = j
    · subst hij
      have hbefore : ¬(i + 1 ≤ i ∧ i < i + 1 + bs.length ∧ i < row.size) := by omega
      have hfirst : i < i + (bs.length + 1) := by omega
      rw [if_neg hbefore, if_pos rfl, Nat.sub_self, List.getElem?_cons_zero]
      by_cases hlt : i < row.size
      · rw [if_pos hlt, if_pos ⟨Nat.le_refl i, hfirst, hlt⟩]
      · rw [if_neg hlt, if_neg fun h => hlt h.2.2, Array.getElem?_eq_none (Nat.le_of_not_lt hlt)]
    · by_cases hin : i + 1 ≤ j ∧ j < i + 1 + bs.length ∧ j < row.size
      · have hin' : i ≤ j ∧ j < i + (bs.length + 1) ∧ j < row.size := by omega
        rw [if_pos hin, if_pos hin', show j - i = (j - (i + 1)) + 1 by omega]
        simp
      · have hin' : ¬(i ≤ j ∧ j < i + (bs.length + 1) ∧ j < row.size) := by omega
        rw [if_neg hin, if_neg hin', if_neg hij]

@[simp] theorem size_store (m : Memory) (address : UInt64) (bs : List UInt8) :
    (m.store address bs).size = m.size := by
  simp [store, Memory.size]

end Memory

end X64
