import X64.Proofs.Effect.Footprint
import X64.Proofs.Machine.Run

/-!
# Return addresses

A `call` pushes the index of the next instruction, and the `ret` at the end of the function takes it
from the stack again. In between the function may run for any time and may do anything, as long as
the slot stays as it is. This module says when it does.

* `Machine.store?` is the word that the next step stores. It is the only thing that a step changes
  in memory, so a word elsewhere is read as before (`read_of_next?`, and `read_of_after?` for a
  sequence of steps).
* `State.returnSlot` is the word that a `call` stores. After the step it can be read there
  (`read_returnSlot`), and a `ret` that finds `rsp` at the slot reads it (`Performs.of_ret`).
  `return_address_survives` puts the two steps around such a sequence.
-/

namespace X64

/-! ## Words that overlap -/

/-- The two words have a byte in common. -/
def Store.Overlaps (s t : Store) : Prop := ∃ k, s.Covers k ∧ t.Covers k

/-- Of two words without a common byte, one ends before the other begins. -/
theorem Store.disjoint_of_not_overlaps {s t : Store} (h : ¬s.Overlaps t) :
    t.address.toNat + t.width.bytes ≤ s.address.toNat ∨
      s.address.toNat + s.width.bytes ≤ t.address.toNat := by
  have hs := s.width.bytes_pos
  have ht := t.width.bytes_pos
  refine Classical.byContradiction fun hcross => h ?_
  -- The words cross, so the later one of their first bytes belongs to both.
  refine ⟨max s.address.toNat t.address.toNat, ?_, ?_⟩ <;> unfold Covers <;> omega

/-- The word that a call stores below the top of the stack: the index of the next instruction. -/
def State.returnSlot (s : State) : Store := ⟨s.rsp - slotSize, .qword, s.rip + 1⟩

namespace Instruction

variable {i : Instruction} {memory : Memory} {state : State} {e : Effect}

/-- A call stores the index of the next instruction, for which there is room. -/
theorem Performs.of_call (h : i.Performs memory state e) (hm : i.mnemonic = .call) :
    memory.InBounds (state.rsp - slotSize) Width.qword.bytes ∧
      e.store = some state.returnSlot := by
  cases h with
  | call _ _ hroom => exact ⟨hroom, rfl⟩
  | _ => simp_all [Mnemonic.operation?, Mnemonic.shift?]

/-- A return takes `rip` from the top of the stack and moves `rsp` up by a slot. -/
theorem Performs.of_ret (h : i.Performs memory state e) (hm : i.mnemonic = .ret) :
    memory.read state.rsp .qword = .ok e.state.rip ∧ e.state.rsp = state.rsp + slotSize := by
  cases h with
  | ret _ _ htop =>
    refine ⟨htop.trans (congrArg _ (State.get_set_self _ _ _).symm), ?_⟩
    exact (State.get_set_of_ne _ (by decide) _).trans (State.get_set_self _ _ _)
  | _ => simp_all [Mnemonic.operation?, Mnemonic.shift?]

end Instruction

namespace Machine

variable {m u v : Machine}

/-! ## What a step stores -/

/-- The word that the next step stores. A failing step stores nothing, and neither does a system
call. -/
def store? (m : Machine) : Option Store :=
  m.current?.bind fun i => (i.effect m.memory m.state).toOption.bind Effect.store

theorem store?_eq {i : Instruction} {e : Effect} (hi : m.current? = some i)
    (he : i.effect m.memory m.state = .ok e) : m.store? = e.store := by
  rw [store?, hi, Option.bind_some, he]
  rfl

/-- A step changes nothing in memory but the word that it stores. -/
theorem read_of_next? (h : m.next? = some v) {address : UInt64} {w : Width}
    (hkept : ∀ s, m.store? = some s →
      address.toNat + w.bytes ≤ s.address.toNat ∨
        s.address.toNat + s.width.bytes ≤ address.toNat) :
    v.memory.read address w = m.memory.read address w := by
  obtain ⟨i, hi, ⟨-, e, -, rfl⟩ | ⟨-, e, he, rfl⟩⟩ := next?_cases h
  · cases e <;> rfl
  · have hstore := store?_eq hi he
    show (e.commit m.memory).read address w = m.memory.read address w
    unfold Effect.commit
    split
    · next s hs =>
      apply Memory.read_store_of_disjoint
      rw [length_bytesOfWord]
      exact hkept s (hstore.trans hs)
    · rfl

/-- A word that no step of a sequence stores into is read at the end as it was at the start. -/
theorem read_of_after? {n : Nat} (h : m.after? n = some v) {address : UInt64} {w : Width}
    (hkept : ∀ j u s, j < n → m.after? j = some u → u.store? = some s →
      address.toNat + w.bytes ≤ s.address.toNat ∨
        s.address.toNat + s.width.bytes ≤ address.toNat) :
    v.memory.read address w = m.memory.read address w := by
  induction n generalizing v with
  | zero =>
    obtain rfl : m = v := by simpa using h
    rfl
  | succ n ih =>
    rw [after?_succ] at h
    obtain ⟨u, hu, hv⟩ := Option.bind_eq_some_iff.1 h
    rw [read_of_next? hv fun s hs => hkept n u s (Nat.lt_succ_self n) hu hs]
    exact ih hu fun j u s hj => hkept j u s (Nat.lt_succ_of_lt hj)

/-! ## Calls and returns -/

/-- The step of an instruction other than a system call is its effect. -/
theorem exists_performs_of_next? {i : Instruction} (hi : m.current? = some i)
    (hm : i.mnemonic ≠ .syscall) (h : m.next? = some v) :
    ∃ e, i.Performs m.memory m.state e ∧ v = m.record.applyEffect e := by
  obtain ⟨i', hi', ⟨hsyscall, -⟩ | ⟨-, e, he, rfl⟩⟩ := next?_cases h
  · obtain rfl : i = i' := Option.some.inj (hi.symm.trans hi')
    exact absurd hsyscall hm
  · obtain rfl : i = i' := Option.some.inj (hi.symm.trans hi')
    exact ⟨e, Instruction.performs_of_effect he, rfl⟩

/-- After a call, its slot holds the index of the next instruction. -/
theorem read_returnSlot {i : Instruction} (hi : m.current? = some i) (hm : i.mnemonic = .call)
    (h : m.next? = some v) :
    v.memory.read m.state.returnSlot.address .qword = .ok (m.state.rip + 1) := by
  obtain ⟨e, he, rfl⟩ := exists_performs_of_next? hi (by rw [hm]; decide) h
  obtain ⟨hroom, hstore⟩ := he.of_call hm
  have hread := Memory.read_store_self hroom (m.state.rip + 1)
  rw [Width.truncate_qword] at hread
  show (e.commit m.memory).read _ _ = _
  rw [Effect.commit, hstore]
  exact hread

end Machine

/-- Return addresses survive until their `ret`. Take any sequence of successful steps that begins
with a `call`. If no later step stores into the slot that the call has pushed, the eight bytes below
`rsp`, then a `ret` that finds `rsp` at this slot goes back behind the call, and `rsp` is what it
was before the call. -/
theorem return_address_survives {m u v : Machine} {n : Nat} {i j : Instruction}
    (hi : m.current? = some i) (hcall : i.mnemonic = .call) (hu : m.after? (n + 1) = some u)
    (hkept : ∀ k w s, 1 ≤ k → k ≤ n → m.after? k = some w → w.store? = some s →
      ¬s.Overlaps m.state.returnSlot)
    (hj : u.current? = some j) (hret : j.mnemonic = .ret)
    (hrsp : u.state.rsp = m.state.rsp - 8) (hv : u.next? = some v) :
    v.state.rip = m.state.rip + 1 ∧ v.state.rsp = m.state.rsp := by
  rw [Machine.after?] at hu
  obtain ⟨w, hw, hwu⟩ := Option.bind_eq_some_iff.1 hu
  have hslot : u.memory.read m.state.returnSlot.address .qword = .ok (m.state.rip + 1) := by
    rw [← Machine.read_returnSlot hi hcall hw]
    refine Machine.read_of_after? hwu fun k x s hk hx hs => ?_
    have hafter : m.after? (k + 1) = some x := by
      rw [Machine.after?, hw]
      exact hx
    exact Store.disjoint_of_not_overlaps (hkept (k + 1) x s (by omega) (by omega) hafter hs)
  obtain ⟨e, he, rfl⟩ := Machine.exists_performs_of_next? hj (by rw [hret]; decide) hv
  obtain ⟨htop, hback⟩ := he.of_ret hret
  have hread : u.memory.read u.state.rsp .qword = .ok (m.state.rip + 1) := by
    rw [hrsp]
    exact hslot
  constructor
  · exact Except.ok.inj (htop.symm.trans hread)
  · show e.state.rsp = m.state.rsp
    rw [hback, hrsp]
    exact UInt64.sub_add_cancel ..

/-- A machine that is about to call a function. The function calls another one, pushes and pops,
stores a byte right below its slot and a double word right above it, and makes a system call that
writes no bytes before it returns. -/
def atNestedCall : Machine where
  program :=
    { instructions :=
        #[⟨.call, [.label "f" 2], 1⟩, ⟨.nop, [], 2⟩, ⟨.push, [.immediate 7], 3⟩,
          ⟨.call, [.label "g" 9], 4⟩, ⟨.pop, [.register ⟨.rbx, .qword⟩], 5⟩,
          ⟨.mov, [.memory ⟨some .byte, some .rsp, -1⟩, .immediate (-1)], 6⟩,
          ⟨.mov, [.memory ⟨some .dword, some .rsp, 8⟩, .immediate (-1)], 7⟩,
          ⟨.syscall, [], 8⟩, ⟨.ret, [], 9⟩, ⟨.ret, [], 10⟩] }
  kernel := .linux
  memory := Memory.zeroed 72
  state := ((({} : State).set .rsp 64).set .rax 1).set .rdi 1

/-- The stores of `atNestedCall` come as close to its slot as they can. Its call is at index
zero. -/
theorem atNestedCall_returns :
    (atNestedCall.after? 5).bind Machine.store? = some ⟨55, .byte, 0xff⟩ ∧
      (atNestedCall.after? 6).bind Machine.store? = some ⟨64, .dword, 0xffffffff⟩ ∧
      ∃ v, atNestedCall.after? 9 = some v ∧ v.state.rip = 1 ∧ v.state.rsp = 64 := by
  have hapart : ∀ k, k < 8 → 1 ≤ k → ∀ s ∈ (atNestedCall.after? k).bind Machine.store?,
      s.address.toNat + s.width.bytes ≤ 56 ∨ 64 ≤ s.address.toNat := by decide +kernel
  have hret : (atNestedCall.after? 8).map Machine.current? = some (some ⟨.ret, [], 9⟩) := by
    decide +kernel
  have hrsp : (atNestedCall.after? 8).map (·.state.rsp) = some 56 := by decide +kernel
  obtain ⟨v, hv⟩ : ∃ v, atNestedCall.after? 9 = some v :=
    Option.isSome_iff_exists.1 (by decide +kernel)
  have hlast := hv
  rw [Machine.after?_succ] at hlast
  obtain ⟨u, hu, hnext⟩ := Option.bind_eq_some_iff.1 hlast
  rw [hu] at hret hrsp
  refine ⟨by decide +kernel, by decide +kernel, v, hv, ?_⟩
  refine return_address_survives (n := 7) (i := ⟨.call, [.label "f" 2], 1⟩) rfl rfl hu ?_
    (Option.some.inj hret) rfl (Option.some.inj hrsp) hnext
  rintro k w s hone hseven hw hs ⟨b, hb, hslot⟩
  have hs' : s ∈ (atNestedCall.after? k).bind Machine.store? := by
    rw [hw]
    exact hs
  have hdisjoint := hapart k (by omega) hone s hs'
  have haddress : atNestedCall.state.returnSlot.address.toNat = 56 := by decide
  have hbytes : atNestedCall.state.returnSlot.width.bytes = 8 := rfl
  unfold Store.Covers at hb hslot
  omega

end X64
