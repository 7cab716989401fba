import X64.Proofs.Effect
import X64.Proofs.Memory

/-!
# Words on the stack

The stack grows down from the end of memory, so a word on it is known by its distance from there,
its depth. `Memory.Holds` says which words a memory holds. `Holds.store` is the one law about it: a
store makes its own word true and keeps every word that lies apart from it. Whether two words lie
apart is a question about their depths, whatever the size of the memory is.
-/

namespace X64

/-- The address at a distance from the end of a memory of `top` bytes. -/
def below (top depth : Nat) : UInt64 := UInt64.ofNat (top - depth)

theorem toNat_below {top : Nat} (h : top < UInt64.size) (depth : Nat) :
    (below top depth).toNat = top - depth :=
  UInt64.toNat_ofNat_of_lt' (Nat.lt_of_le_of_lt (Nat.sub_le top depth) h)

theorem below_sub {top depth n : Nat} (h : depth + n ≤ top) :
    below top depth - UInt64.ofNat n = below top (depth + n) := by
  rw [below, below, ← UInt64.ofNat_sub (by omega), Nat.sub_sub]

theorem below_add {top depth n : Nat} (hn : n ≤ depth) (h : depth ≤ top) :
    below top depth + UInt64.ofNat n = below top (depth - n) := by
  rw [below, below, ← UInt64.ofNat_add]
  congr 1
  omega

/-- A word on the stack, with the distance of its address from the end of memory. -/
structure Slot where
  depth : Nat
  width : Width
  value : UInt64

/-- The bytes of two slots are different ones. -/
def Slot.Apart (t u : Slot) : Prop :=
  t.depth + u.width.bytes ≤ u.depth ∨ u.depth + t.width.bytes ≤ t.depth

/-- A slot in front of slots that all lie above it. -/
theorem Slot.eq_or_apart_of_mem_cons {t u : Slot} {stack : List Slot}
    (h : ∀ u ∈ stack, u.depth + t.width.bytes ≤ t.depth) (hu : u ∈ t :: stack) :
    u = t ∨ u ∈ stack ∧ u.Apart t := by
  rcases List.mem_cons.1 hu with heq | hmem
  · exact Or.inl heq
  · exact Or.inr ⟨hmem, Or.inl (h u hmem)⟩

namespace Memory

/-- The memory has `top` bytes, and the words of the slots are in their places. -/
structure Holds (m : Memory) (top : Nat) (stack : List Slot) : Prop where
  size_eq : m.size = top
  top_lt : top < UInt64.size
  inside : ∀ t ∈ stack, t.width.bytes ≤ t.depth ∧ t.depth ≤ top
  read_eq : ∀ t ∈ stack, m.read (below top t.depth) t.width = .ok t.value

variable {m : Memory} {top : Nat} {stack stack' : List Slot}

theorem Holds.inBounds (h : m.Holds top stack) {depth length : Nat} (hlength : length ≤ depth)
    (hdepth : depth ≤ top) : m.InBounds (below top depth) length := by
  rw [InBounds, toNat_below h.top_lt, h.size_eq]
  omega

theorem Holds.mono (h : m.Holds top stack) (hsub : stack' ⊆ stack) : m.Holds top stack' where
  size_eq := h.size_eq
  top_lt := h.top_lt
  inside := fun t ht => h.inside t (hsub ht)
  read_eq := fun t ht => h.read_eq t (hsub ht)

/-- A store puts its word in place and keeps those apart from it. -/
theorem Holds.store (h : m.Holds top stack) {t : Slot} (hlength : t.width.bytes ≤ t.depth)
    (hdepth : t.depth ≤ top) {v : UInt64} (hv : t.width.truncate v = t.value)
    (hstack : ∀ u ∈ stack', u = t ∨ u ∈ stack ∧ u.Apart t) :
    (m.store (below top t.depth) (bytesOfWord t.width.bytes v)).Holds top stack' where
  size_eq := by rw [size_store, h.size_eq]
  top_lt := h.top_lt
  inside := by
    intro u hu
    rcases hstack u hu with rfl | ⟨hmem, -⟩
    · exact ⟨hlength, hdepth⟩
    · exact h.inside u hmem
  read_eq := by
    intro u hu
    rcases hstack u hu with rfl | ⟨hmem, hapart⟩
    · rw [read_store_self (h.inBounds hlength hdepth), hv]
    · rw [← h.read_eq u hmem]
      apply read_store_of_disjoint
      have hinside := h.inside u hmem
      rw [toNat_below h.top_lt, toNat_below h.top_lt, length_bytesOfWord]
      unfold Slot.Apart at hapart
      omega

end Memory

end X64
