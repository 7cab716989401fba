import X64.Proofs.Effect.Destination
import X64.Proofs.Effect.Footprint
import X64.Proofs.Operand

/-!
# Copies

A `mov` copies one value and touches nothing else. What a value is, is said without the reader:
`Operand.HasValue` gives it as a number, from the register, the immediate or the bytes of memory
that it comes from, and `Operand.read_eq_ok_iff_hasValue` says that the reader agrees.

`mov_copies_one_value` puts together what is known about a `mov`: the value that arrives, where it
can be taken from afterwards, and what stays as it was.
-/

namespace X64

/-! ## Values as numbers -/

/-- The value of an operand at its width is the number `value`. A number in memory is spelled by its
bytes, the low byte first. -/
def Operand.HasValue (o : Operand) (memory : Memory) (state : State) (w : Width) (value : UInt64) :
    Prop :=
  match o with
  | .register v => value.toNat = (state.get v.register).toNat % w.modulus
  | .immediate x => (value.toNat : Int) = x.toInt % w.modulus
  | .memory m =>
    value.toNat < w.modulus ∧ ∀ k < w.bytes,
      memory.bytes[(m.address state).toNat + k]? = some (UInt8.ofNat (value.toNat / 256 ^ k))
  | .label .. => False

theorem toNat_truncate_toUInt64 (w : Width) (x : Int64) :
    ((w.truncate x.toUInt64).toNat : Int) = x.toInt % w.modulus := by
  have hdvd : (w.modulus : Int) ∣ UInt64.size := by cases w <;> decide
  rw [Width.toNat_truncate, Int.natCast_emod, toNat_toUInt64, Int.emod_emod_of_dvd _ hdvd]

theorem Operand.read_eq_ok_iff_hasValue {o : Operand} {memory : Memory} {state : State} {w : Width}
    {value : UInt64} (hw : o.width?.getD w = w) :
    o.read memory state w = .ok value ↔ o.HasValue memory state w value := by
  cases o with
  | register v =>
    have hwidth : v.width = w := hw
    rw [read, State.read, hwidth, Width.truncate_truncate, HasValue, ← Width.toNat_truncate,
      UInt64.toNat_inj, eq_comm, Except.ok.injEq, eq_comm]
  | immediate x =>
    rw [read, HasValue, ← toNat_truncate_toUInt64, Int.ofNat_inj, UInt64.toNat_inj, Except.ok.injEq,
      eq_comm]
  | memory m => exact mapError_eq_ok_iff.trans Memory.read_eq_ok_iff
  | label name target => simp [read, HasValue]

/-! ## What a `mov` does -/

/-- The effect of a `mov` between two operands at a width: a value arrives at the destination, and
nothing else happens. -/
structure CopiesValue (memory : Memory) (state : State) (dst src : Operand) (w : Width)
    (value : UInt64) (e : Effect) : Prop where
  /-- It is the value of the source before. -/
  taken : src.HasValue memory state w value
  /-- It is the value of the destination afterwards. -/
  arrives : dst.read (e.commit memory) e.state w = .ok value
  /-- It can be moved on from there to any register but `rip`. -/
  moved_on : ∀ (r : Register) (next : Instruction), r ≠ .rip → next.mnemonic = .mov →
    next.operands = [.register ⟨r, w⟩, dst] →
    ∃ e', next.effect (e.commit memory) e.state = .ok e' ∧ e'.state.read ⟨r, w⟩ = value
  flags_eq : e.state.flags = state.flags
  /-- No register changes but `rip` and that of the destination. -/
  get_eq : ∀ r, r ≠ .rip → (∀ u, dst ≠ .register ⟨r, u⟩) → e.state.get r = state.get r
  /-- The destination is used at its own width. A narrow view keeps the bits above, and a double
  word clears them. -/
  view : ∀ r u, dst = .register ⟨r, u⟩ → u = w ∧
    (w = .byte ∨ w = .word →
      (e.state.get r).toNat / w.modulus = (state.get r).toNat / w.modulus) ∧
    (w = .dword → (e.state.get r).toNat < 2 ^ 32)
  size_eq : (e.commit memory).size = memory.size
  /-- No byte changes but those of the destination. -/
  getElem?_eq : ∀ k : Nat,
    (∀ m, dst = .memory m →
      ¬((m.address state).toNat ≤ k ∧ k < (m.address state).toNat + w.bytes)) →
    (e.commit memory).bytes[k]? = memory.bytes[k]?

section

variable {memory : Memory} {state : State} {dst src : Operand} {w : Width} {value : UInt64}
  {i : Instruction} {e : Effect}

/-- A `mov` from a place that can be read to a register of the same width. -/
theorem effect_mov_register {r : Register} (hm : i.mnemonic = .mov)
    (ho : i.operands = [.register ⟨r, w⟩, src]) (hsrc : src.width?.getD w = w)
    (hread : src.read memory state w = .ok value) :
    i.effect memory state = .ok { state := (state.write ⟨r, w⟩ value).advance } :=
  Instruction.effect_mov hm ho rfl (Instruction.commonWidth_eq rfl hsrc) hread rfl

theorem copiesValue_of_write (hdst : dst.width?.getD w = w) (hsrc : src.width?.getD w = w)
    (hrip : ¬dst.DependsOn .rip) (hread : src.read memory state w = .ok value)
    (hwrite : dst.write memory state w value = .ok e) :
    CopiesValue memory state dst src w value (e.mapState State.advance) := by
  have htruncate : w.truncate value = value := Width.truncate_of_lt (Operand.toNat_lt_of_read hread)
  have harrives : dst.read (e.commit memory) e.state.advance w = .ok value := by
    rw [Operand.read_congr hrip (State.agreesOffRip_advance _), Operand.read_of_write hdst hwrite,
      htruncate]
  refine
    { taken := (Operand.read_eq_ok_iff_hasValue hsrc).1 hread
      arrives := harrives
      moved_on := fun r next hr hm ho => ⟨_, effect_mov_register hm ho hdst harrives, ?_⟩
      flags_eq := show e.state.flags = state.flags from Instruction.flags_of_write hwrite
      get_eq := fun r hr hother =>
        (State.get_advance_of_ne _ hr).trans (Instruction.get_of_write hwrite hother)
      view := fun r u hview => ?_
      size_eq := Effect.size_commit e memory
      getElem?_eq := fun k hk => ?_ }
  · have hread := State.read_write (e.mapState State.advance).state ⟨r, w⟩ value
    rw [State.read] at hread
    rw [State.read, State.get_advance_of_ne _ hr, hread, htruncate]
  · subst hview
    obtain rfl : u = w := hdst
    have hne : r ≠ .rip := hrip
    cases hwrite
    have hget : (state.write ⟨r, u⟩ value).advance.get r = (state.write ⟨r, u⟩ value).get r :=
      State.get_advance_of_ne _ hne
    exact ⟨rfl, fun hnarrow => (congrArg (·.toNat / u.modulus) hget).trans
        (State.get_write_div_of_narrow hnarrow),
      fun hdword => hget ▸ State.toNat_get_write_of_dword hdword⟩
  · rcases Operand.write_eq_ok_iff.1 hwrite with ⟨v, rfl, rfl⟩ | ⟨m, rfl, hin, rfl⟩
    · rfl
    · exact Memory.getElem?_store_of_not_covers (hk m rfl)

end

/-- A `mov` copies exactly one value. If one succeeds, it has two operands and a width, and unless
its destination depends on `rip`, its effect is that of a copy. -/
theorem mov_copies_one_value {i : Instruction} {memory : Memory} {state : State} {e : Effect}
    (hm : i.mnemonic = .mov) (h : i.effect memory state = .ok e) :
    ∃ dst src w value, i.operands = [dst, src] ∧ i.commonWidth dst src = .ok w ∧
      (¬dst.DependsOn .rip → CopiesValue memory state dst src w value e) := by
  have hmov : Handler.mov memory state i = .ok e := by
    rw [Instruction.effect, hm] at h
    exact h
  obtain ⟨dst, src, ho⟩ := Instruction.exists_pair_of_bind hmov
  obtain ⟨-, w, value, e', hw, hread, hwrite, rfl⟩ :=
    (Instruction.effect_mov_eq_ok_iff hm ho).1 h
  obtain ⟨hdst, hsrc, -⟩ := Instruction.commonWidth_eq_ok_iff.1 hw
  exact ⟨dst, src, w, value, ho, hw, fun hrip => copiesValue_of_write hdst hsrc hrip hread hwrite⟩

/-- The place two bytes behind `rbx`. -/
def behindBase : Operand := .memory ⟨none, some .rbx, 2⟩

/-- The base holds the last address, and `ax` the word to be copied. -/
def beforeCopy : State := (({} : State).set .rbx 0xffffffffffffffff).set .rax 0xff1234

/-- The word is stored at address 1, between two bytes that are kept, and it can be taken from there
to the register that the address is computed from. -/
theorem mov_behindBase_copies_word :
    ∃ e e', Instruction.effect ⟨.mov, [behindBase, .register ⟨.rax, .word⟩], 1⟩ (.zeroed 4)
        beforeCopy = .ok e ∧
      behindBase.read (e.commit (.zeroed 4)) e.state .word = .ok 0x1234 ∧
      (e.commit (.zeroed 4)).bytes[0]? = some 0 ∧ (e.commit (.zeroed 4)).bytes[3]? = some 0 ∧
      e.state.get .rax = 0xff1234 ∧
      Instruction.effect ⟨.mov, [.register ⟨.rbx, .word⟩, behindBase], 2⟩ (e.commit (.zeroed 4))
        e.state = .ok e' ∧
      e'.state.read ⟨.rbx, .word⟩ = 0x1234 := by
  obtain ⟨e, he⟩ : ∃ e, Instruction.effect ⟨.mov, [behindBase, .register ⟨.rax, .word⟩], 1⟩
      (.zeroed 4) beforeCopy = .ok e := ⟨_, rfl⟩
  obtain ⟨dst, src, w, value, ho, hw, hcopies⟩ := mov_copies_one_value rfl he
  obtain ⟨rfl, rfl⟩ : behindBase = dst ∧ Operand.register ⟨.rax, .word⟩ = src := by simpa using ho
  cases hw
  have hcopies := hcopies (by decide)
  obtain rfl : 0x1234 = value := UInt64.toNat_inj.1 hcopies.taken.symm
  obtain ⟨e', he', hvalue⟩ := hcopies.moved_on .rbx ⟨.mov, [.register ⟨.rbx, .word⟩, behindBase], 2⟩
    (by decide) rfl rfl
  have hkept (k : Nat) (hk : k = 0 ∨ k = 3) :
      (e.commit (.zeroed 4)).bytes[k]? = (Memory.zeroed 4).bytes[k]? := by
    refine hcopies.getElem?_eq k fun m hplace => ?_
    cases hplace
    rcases hk with rfl | rfl <;> decide
  refine ⟨e, e', he, hcopies.arrives, (hkept 0 (Or.inl rfl)).trans rfl,
    (hkept 3 (Or.inr rfl)).trans rfl, ?_, he', hvalue⟩
  exact (hcopies.get_eq .rax (by decide) fun u hu => by cases hu).trans rfl

end X64
