import X64.Proofs.Effect.Destination
import X64.Proofs.Memory.ByteMap

/-!
# Registers as rows of bytes

A register is known by its eight bytes, and this module says what writes to its views do to them.

* `byteAt` is a byte of a word, the low one first. `State.byteAt_merge` gives the bytes of a
  register after one write.
* `Write` is a write to a view, and `Write.byte?` is the byte that it gives to a register. After a
  sequence of writes each byte is the one of the latest write that covers it
  (`Write.byteAt_performAll`).

A dword write is the only one that covers bytes which it does not carry: it clears them.
-/

namespace X64

/-! ## Bytes of words -/

/-- A byte of a word, the low one first. -/
def byteAt (v : UInt64) (k : Nat) : UInt8 := UInt8.ofNat (v.toNat / 256 ^ k)

section

variable {w : Width} {k : Nat}

theorem byteAt_truncate (hk : k < w.bytes) (v : UInt64) : byteAt (w.truncate v) k = byteAt v k := by
  rw [byteAt, Width.toNat_truncate, Width.ofNat_mod_div hk, byteAt]

theorem byteAt_eq_of_le (hk : w.bytes ≤ k) (v : UInt64) :
    byteAt v k = UInt8.ofNat (v.toNat / w.modulus / 256 ^ (k - w.bytes)) := by
  rw [byteAt, Nat.div_div_eq_div_mul, Width.modulus_eq_pow_bytes, ← Nat.pow_add,
    Nat.add_sub_cancel' hk]

theorem byteAt_truncate_of_le (hk : w.bytes ≤ k) (v : UInt64) : byteAt (w.truncate v) k = 0 := by
  rw [byteAt_eq_of_le hk, Nat.div_eq_of_lt (Width.toNat_truncate_lt w v), Nat.zero_div]
  rfl

/-- A word is the number that its bytes spell. -/
theorem toNat_truncate_eq_sum (w : Width) (v : UInt64) :
    (w.truncate v).toNat = ∑ k ∈ Finset.range w.bytes, (byteAt v k).toNat * 256 ^ k := by
  have hlength := length_bytesOfWord w.bytes v
  rw [← wordOfBytes_bytesOfWord, toNat_wordOfBytes_eq_sum (hlength.symm ▸ w.bytes_le), hlength]
  apply Finset.sum_congr rfl
  intro k hk
  rw [getElem?_bytesOfWord (Finset.mem_range.1 hk)]
  rfl

end

namespace State

/-- What one write makes of a register. Its own bytes come first, and a dword write clears the
others. -/
theorem byteAt_merge (w : Width) (old value : UInt64) (k : Nat) :
    byteAt (merge w old value) k =
      if k < w.bytes then byteAt value k else if w = .dword then 0 else byteAt old k := by
  split
  · next hk => rw [← byteAt_truncate hk, truncate_merge, byteAt_truncate hk]
  · next hk =>
    have hle : w.bytes ≤ k := Nat.le_of_not_lt hk
    obtain hnarrow | hdword | hqword := narrow_or_wide w
    · have hne : w ≠ .dword := by
        obtain rfl | rfl := hnarrow
        · decide
        · decide
      rw [if_neg hne, byteAt_eq_of_le hle, toNat_merge_div_of_narrow hnarrow, ← byteAt_eq_of_le hle]
    · rw [if_pos hdword, merge_of_wide (Or.inl hdword), byteAt_truncate_of_le hle]
    · -- No byte of a word lies above the eight of a qword.
      subst hqword
      rw [if_neg (by decide), merge_of_wide (Or.inr rfl), byteAt_truncate_of_le hle,
        ← Width.truncate_qword old, byteAt_truncate_of_le hle]

/-! ## Writes -/

/-- A write to a view of a register. -/
structure Write where
  view : View
  value : UInt64
  deriving DecidableEq, Repr

namespace Write

/-- The byte that the write gives to byte `k` of a register, if it covers it. A write covers the
bytes of its view, and a dword write covers those above as well, which become zero. -/
def byte? (w : Write) (r : Register) (k : Nat) : Option UInt8 :=
  if w.view.register = r then
    if k < w.view.width.bytes then some (byteAt w.value k)
    else if w.view.width = .dword then some 0 else none
  else none

/-- Carries out the write. -/
def perform (s : State) (w : Write) : State := s.write w.view w.value

/-- Carries out a sequence of writes. -/
def performAll (s : State) (ws : List Write) : State := ws.foldl perform s

/-- The byte that the latest of the writes that cover byte `k` of a register gives to it. -/
def latestByte? (ws : List Write) (r : Register) (k : Nat) : Option UInt8 :=
  ws.reverse.findSome? fun w => w.byte? r k

theorem latestByte?_cons (w : Write) (ws : List Write) (r : Register) (k : Nat) :
    latestByte? (w :: ws) r k = (latestByte? ws r k).or (w.byte? r k) :=
  findSome?_reverse_cons (byte? · r k) w ws

/-- After one write, the bytes that it covers are its own. -/
theorem byteAt_perform (s : State) (w : Write) (r : Register) (k : Nat) :
    byteAt ((perform s w).get r) k = (w.byte? r k).getD (byteAt (s.get r) k) := by
  rw [perform, byte?]
  by_cases hr : w.view.register = r
  · subst hr
    rw [get_write_self, byteAt_merge, if_pos rfl]
    split
    · rfl
    · split
      · rfl
      · rfl
  · rw [get_write_of_ne s (Ne.symm hr), if_neg hr]
    rfl

/-- After a sequence of writes, each byte is that of the latest write that covers it. -/
theorem byteAt_performAll (s : State) (ws : List Write) (r : Register) (k : Nat) :
    byteAt ((performAll s ws).get r) k = (latestByte? ws r k).getD (byteAt (s.get r) k) := by
  induction ws generalizing s with
  | nil => rfl
  | cons w ws ih =>
    show byteAt ((performAll (perform s w) ws).get r) k = _
    rw [ih, byteAt_perform, latestByte?_cons]
    cases latestByte? ws r k with
    | none => rfl
    | some b => rfl

theorem flags_performAll (s : State) (ws : List Write) : (performAll s ws).flags = s.flags := by
  induction ws generalizing s with
  | nil => rfl
  | cons w ws ih =>
    show (performAll (perform s w) ws).flags = s.flags
    rw [ih, perform, flags_write]

end Write

/-- The last writer wins, byte by byte. After a sequence of writes to views of any registers and
widths, each byte of each register is that of the latest write that covers it, or what it was
before. The flags are the same, and a view reads as the number that the low bytes of its register
spell. -/
theorem latest_write_wins (s : State) (ws : List Write) :
    (∀ r k, byteAt ((Write.performAll s ws).get r) k =
      (Write.latestByte? ws r k).getD (byteAt (s.get r) k)) ∧
    (Write.performAll s ws).flags = s.flags ∧
    ∀ v : View, ((Write.performAll s ws).read v).toNat =
      ∑ k ∈ Finset.range v.width.bytes,
        (byteAt ((Write.performAll s ws).get v.register) k).toNat * 256 ^ k :=
  ⟨Write.byteAt_performAll s ws, Write.flags_performAll s ws,
    fun v => toNat_truncate_eq_sum v.width _⟩

/-- A word write keeps the bytes above it, but a dword write in between has cleared them. -/
example : (Write.performAll {} [⟨⟨.rbx, .qword⟩, 0x1122334455667788⟩, ⟨⟨.rbx, .dword⟩, 0xaabbccdd⟩,
    ⟨⟨.rax, .byte⟩, 0x1ff⟩, ⟨⟨.rbx, .word⟩, 0x12345⟩]).get .rbx = 0xaabb2345 := by
  decide

end State

end X64
