import X64.Memory
import Mathlib.Algebra.Group.Nat.Defs
import Mathlib.Tactic.Common

/-!
# Reading what was stored

The word that is read at an address is the one that was stored there last (`read_store_self`), and a
store elsewhere does not change it (`read_store_of_disjoint`). Both come down to the bytes: a word
is the number that its bytes spell (`wordOfBytes_bytesOfWord`, `bytesOfWord_wordOfBytes`), and the
bytes of a row are given by `Memory.getElem?_put`. `Memory.read_eq_ok_iff` says which word is read,
byte by byte.
-/

namespace X64

/-! ## Words and their bytes -/

theorem Width.truncate_of_lt {w : Width} {v : UInt64} (h : v.toNat < w.modulus) :
    w.truncate v = v := by
  apply UInt64.toNat_inj.1
  rw [toNat_truncate, Nat.mod_eq_of_lt h]

theorem Width.modulus_eq_two_pow (w : Width) : w.modulus = 2 ^ w.bits := by
  cases w <;> rfl

theorem Width.modulus_eq_pow_bytes (w : Width) : w.modulus = 256 ^ w.bytes :=
  w.modulus_eq_two_pow.trans (Nat.pow_mul 2 8 w.bytes)

/-- The low bytes of a word spell its remainder. -/
theorem toNat_wordOfBytes_bytesOfWord (n : Nat) (v : UInt64) :
    (wordOfBytes (bytesOfWord n v)).toNat = v.toNat % 256 ^ n := by
  induction n generalizing v with
  | zero => simp [bytesOfWord, wordOfBytes, Nat.mod_one]
  | succ n ih =>
    have hrest : (wordOfBytes (bytesOfWord n (v >>> 8))).toNat = v.toNat / 256 % 256 ^ n := by
      rw [ih, UInt64.toNat_shiftRight]
      congr 1
      exact Nat.shiftRight_eq_div_pow v.toNat 8
    have hlow : v.toUInt8.toUInt64.toNat = v.toNat % 256 := by simp
    have hsplit : v.toNat % 256 ^ (n + 1) = v.toNat % 256 + 256 * (v.toNat / 256 % 256 ^ n) := by
      rw [Nat.pow_succ', Nat.mod_mul]
    have hlt : v.toNat % 256 ^ (n + 1) < 2 ^ 64 :=
      Nat.lt_of_le_of_lt (Nat.mod_le _ _) v.toNat_lt
    rw [hsplit] at hlt
    rw [bytesOfWord, wordOfBytes, UInt64.toNat_add, UInt64.toNat_mul, hrest, hlow, hsplit,
      show (256 : UInt64).toNat = 256 from rfl]
    generalize v.toNat / 256 % 256 ^ n = rest at hlt ⊢
    omega

theorem wordOfBytes_bytesOfWord (w : Width) (v : UInt64) :
    wordOfBytes (bytesOfWord w.bytes v) = w.truncate v := by
  apply UInt64.toNat_inj.1
  rw [toNat_wordOfBytes_bytesOfWord, Width.toNat_truncate, Width.modulus_eq_pow_bytes]

theorem toNat_wordOfBytes_lt (bs : List UInt8) : (wordOfBytes bs).toNat < 256 ^ bs.length := by
  induction bs with
  | nil => exact Nat.one_pos
  | cons b bs ih =>
    have hb := b.toNat_lt
    have hlow : b.toUInt64.toNat = b.toNat := UInt8.toNat_toUInt64 b
    rw [wordOfBytes, UInt64.toNat_add, UInt64.toNat_mul, hlow, List.length_cons, Nat.pow_succ,
      show (256 : UInt64).toNat = 256 from rfl]
    omega

theorem getElem?_bytesOfWord {n k : Nat} (hk : k < n) (v : UInt64) :
    (bytesOfWord n v)[k]? = some (UInt8.ofNat (v.toNat / 256 ^ k)) := by
  induction n generalizing k v with
  | zero => omega
  | succ n ih =>
    rw [bytesOfWord]
    cases k with
    | zero =>
      have hlow : UInt8.ofNat v.toNat = v.toUInt8 := rfl
      rw [List.getElem?_cons_zero, Nat.pow_zero, Nat.div_one, hlow]
    | succ k =>
      have hshift : (v >>> 8).toNat = v.toNat / 256 := Nat.shiftRight_eq_div_pow v.toNat 8
      rw [List.getElem?_cons_succ, ih (by omega), hshift, Nat.div_div_eq_div_mul, Nat.pow_succ']

/-- Up to eight bytes are spelled without wrapping around. -/
theorem toNat_wordOfBytes_cons {b : UInt8} {bs : List UInt8} (h : (b :: bs).length ≤ 8) :
    (wordOfBytes (b :: bs)).toNat = b.toNat + 256 * (wordOfBytes bs).toNat := by
  rw [List.length_cons] at h
  have hrest : (wordOfBytes bs).toNat < 256 ^ 7 :=
    Nat.lt_of_lt_of_le (toNat_wordOfBytes_lt bs) (Nat.pow_le_pow_right (by decide) (by omega))
  have hb := b.toNat_lt
  rw [wordOfBytes, UInt64.toNat_add, UInt64.toNat_mul, UInt8.toNat_toUInt64,
    show (256 : UInt64).toNat = 256 from rfl]
  omega

/-- Up to eight bytes are those of the word that they spell. -/
theorem bytesOfWord_wordOfBytes {bs : List UInt8} (h : bs.length ≤ 8) :
    bytesOfWord bs.length (wordOfBytes bs) = bs := by
  induction bs with
  | nil => rfl
  | cons b bs ih =>
    have hword := toNat_wordOfBytes_cons h
    have hb := b.toNat_lt
    rw [List.length_cons] at h
    have hlow : (wordOfBytes (b :: bs)).toUInt8 = b := by
      apply UInt8.toNat_inj.1
      rw [UInt64.toNat_toUInt8, hword]
      omega
    have hhigh : wordOfBytes (b :: bs) >>> 8 = wordOfBytes bs := by
      apply UInt64.toNat_inj.1
      have hshift : (wordOfBytes (b :: bs) >>> 8).toNat = (wordOfBytes (b :: bs)).toNat / 256 :=
        Nat.shiftRight_eq_div_pow _ 8
      rw [hshift, hword]
      omega
    rw [List.length_cons, bytesOfWord, hlow, hhigh, ih (by omega)]

/-! ## The bytes of a memory -/

namespace Memory

variable {m : Memory} {a b : UInt64} {bs : List UInt8} {w : Width}

theorem readBytes_eq {length : Nat} (h : m.InBounds a length) :
    m.readBytes a length = .ok (m.bytes.extract a.toNat (a.toNat + length)) := by
  rw [readBytes, check, if_pos h]
  rfl

theorem readBytes_of_not_inBounds {length : Nat} (h : ¬m.InBounds a length) :
    m.readBytes a length = .error { address := a, length, size := m.size } := by
  rw [readBytes, check, if_neg h]
  rfl

/-- A word that is read lies inside memory. -/
theorem inBounds_of_read {value : UInt64} (h : m.read a w = .ok value) :
    m.InBounds a w.bytes := by
  refine Classical.byContradiction fun hout => ?_
  rw [read, readBytes_of_not_inBounds hout] at h
  cases h

theorem read_eq (h : m.InBounds a w.bytes) :
    m.read a w =
      .ok (wordOfBytes (m.bytes.extract a.toNat (a.toNat + w.bytes)).toList) := by
  rw [read, readBytes_eq h]
  rfl

theorem extract_put_self (row : Array UInt8) {i : Nat} (h : i + bs.length ≤ row.size) :
    (put row i bs).extract i (i + bs.length) = bs.toArray := by
  apply Array.ext_getElem?
  intro j
  have hbytes : bs.toArray[j]? = bs[j]? := List.getElem?_toArray ..
  rw [Array.getElem?_extract, size_put, getElem?_put, hbytes]
  by_cases hj : j < bs.length
  · rw [if_pos (by omega), if_pos (by omega), Nat.add_sub_cancel_left]
  · rw [if_neg (by omega), List.getElem?_eq_none (by omega)]

theorem extract_put_of_disjoint (row : Array UInt8) {i j n : Nat}
    (h : j + n ≤ i ∨ i + bs.length ≤ j) :
    (put row i bs).extract j (j + n) = row.extract j (j + n) := by
  apply Array.ext_getElem?
  intro l
  rw [Array.getElem?_extract, Array.getElem?_extract, size_put, getElem?_put]
  by_cases hl : l < min (j + n) row.size - j
  · rw [if_pos hl, if_pos hl, if_neg (by omega)]
  · rw [if_neg hl, if_neg hl]

/-- A word that was stored is read back at its width. -/
theorem read_store_self (h : m.InBounds a w.bytes) (v : UInt64) :
    (m.store a (bytesOfWord w.bytes v)).read a w = .ok (w.truncate v) := by
  have hlength : (bytesOfWord w.bytes v).length = w.bytes := length_bytesOfWord w.bytes v
  have hextract := extract_put_self m.bytes (hlength.symm ▸ h)
  rw [hlength] at hextract
  have hin : (m.store a (bytesOfWord w.bytes v)).InBounds a w.bytes := by
    rw [InBounds, size_store]
    exact h
  rw [read_eq hin, store, hextract, ← wordOfBytes_bytesOfWord]

/-- A store elsewhere does not change what is read. -/
theorem read_store_of_disjoint (h : a.toNat + w.bytes ≤ b.toNat ∨ b.toNat + bs.length ≤ a.toNat) :
    (m.store b bs).read a w = m.read a w := by
  have hextract := extract_put_of_disjoint m.bytes h
  simp only [read, readBytes, check, InBounds, size_store]
  rw [store, hextract]
  rfl

/-- What is read is a number of the width. -/
theorem toNat_lt_of_read {value : UInt64} (h : m.read a w = .ok value) :
    value.toNat < w.modulus := by
  rw [read_eq (inBounds_of_read h)] at h
  cases h
  refine Nat.lt_of_lt_of_le (toNat_wordOfBytes_lt _) ?_
  have hlength : (m.bytes.extract a.toNat (a.toNat + w.bytes)).toList.length ≤ w.bytes := by
    rw [Array.length_toList, Array.size_extract]
    omega
  calc 256 ^ (m.bytes.extract a.toNat (a.toNat + w.bytes)).toList.length
      ≤ 256 ^ w.bytes := Nat.pow_le_pow_right (by decide) hlength
    _ = w.modulus := w.modulus_eq_pow_bytes.symm

/-- The bytes of a word that lies in bounds. -/
theorem getElem?_extract_of_inBounds (h : m.InBounds a w.bytes) {k : Nat} (hk : k < w.bytes) :
    (m.bytes.extract a.toNat (a.toNat + w.bytes)).toList[k]? = m.bytes[a.toNat + k]? := by
  have hsize : a.toNat + w.bytes ≤ m.bytes.size := h
  rw [Array.getElem?_toList, Array.getElem?_extract, if_pos (by omega)]

theorem length_extract_of_inBounds (h : m.InBounds a w.bytes) :
    (m.bytes.extract a.toNat (a.toNat + w.bytes)).toList.length = w.bytes := by
  have hsize : a.toNat + w.bytes ≤ m.bytes.size := h
  rw [Array.length_toList, Array.size_extract]
  omega

/-- A word is read if memory holds all of its bytes. -/
theorem read_eq_ok_iff {value : UInt64} :
    m.read a w = .ok value ↔
      value.toNat < w.modulus ∧ ∀ k < w.bytes,
        m.bytes[a.toNat + k]? = some (UInt8.ofNat (value.toNat / 256 ^ k)) := by
  constructor
  · intro h
    refine ⟨toNat_lt_of_read h, fun k hk => ?_⟩
    have hin := inBounds_of_read h
    have hlength := length_extract_of_inBounds hin
    have hbytes := bytesOfWord_wordOfBytes (hlength.symm ▸ w.bytes_le)
    rw [hlength] at hbytes
    rw [read_eq hin] at h
    cases h
    rw [← getElem?_extract_of_inBounds hin hk, ← getElem?_bytesOfWord hk, hbytes]
  · intro ⟨hlt, hbytes⟩
    have hin : m.InBounds a w.bytes := by
      have hpos := w.bytes_pos
      obtain ⟨hlast, -⟩ := Array.getElem?_eq_some_iff.1 (hbytes (w.bytes - 1) (by omega))
      show a.toNat + w.bytes ≤ m.bytes.size
      omega
    have hspelled : (m.bytes.extract a.toNat (a.toNat + w.bytes)).toList =
        bytesOfWord w.bytes value := by
      apply List.ext_getElem?
      intro k
      by_cases hk : k < w.bytes
      · rw [getElem?_extract_of_inBounds hin hk, hbytes k hk, getElem?_bytesOfWord hk]
      · rw [List.getElem?_eq_none (by rw [length_extract_of_inBounds hin]; omega),
          List.getElem?_eq_none (by rw [length_bytesOfWord]; omega)]
    rw [read_eq hin, hspelled, wordOfBytes_bytesOfWord, Width.truncate_of_lt hlt]

/-- Of two stores to one place the second one counts. -/
theorem store_store (m : Memory) (a : UInt64) {bs bs' : List UInt8} (h : bs.length = bs'.length) :
    (m.store a bs).store a bs' = m.store a bs' := by
  have hbytes : put (put m.bytes a.toNat bs) a.toNat bs' = put m.bytes a.toNat bs' := by
    apply Array.ext_getElem?
    intro j
    rw [getElem?_put, getElem?_put, getElem?_put, size_put, h]
    split <;> rfl
  rw [store, store, store, hbytes]

end Memory

end X64
