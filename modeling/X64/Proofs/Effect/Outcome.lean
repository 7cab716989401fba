import X64.Proofs.Effect.Rules
import X64.Proofs.Memory
import X64.Proofs.Operand

/-!
# When instructions with two operands succeed

A `mov`, an operation or a `cmp` looks at the shape of its operands first, and then it reads and
writes them in a fixed order. There are three groups.

* Accesses. `Access.fault?` says whether reading or writing an operand fails and with which error,
  and `Mnemonic.accesses` gives the order. `failsWith_firstFault` says that a handler fails with the
  first fault of its accesses, and that it succeeds if there is none.
* Shapes. `Refuses` collects the errors, each with all that has to be in order before it, and
  `Usable` the conditions under which there is none. `refuses_or_usable` says that they are
  complete.
* `two_operands_outcome` puts the two sides together: an instruction succeeds exactly when its
  operands are usable, and fails exactly with the error that `Refuses` gives.
-/

namespace X64

/-! ## Accesses -/

/-- The use of an operand as a value or as the place of the result. -/
inductive Access where
  | read (o : Operand)
  | write (o : Operand)
  deriving DecidableEq, Repr

namespace Access

/-- Why an access at a width fails, if it does. A label is neither a value nor a place, an immediate
is no place, and a word of memory has to lie in bounds. -/
def fault? (memory : Memory) (state : State) (w : Width) : Access → Option ExecutionError
  | .read (.register _) | .read (.immediate _) | .write (.register _) => none
  | .read (.memory m) | .write (.memory m) =>
    if (m.address state).toNat + w.bytes ≤ memory.size then none
    else some (.memory { address := m.address state, length := w.bytes, size := memory.size })
  | .read (.label name target) | .write (.label name target) =>
    some (.invalidOperand (Operand.label name target).render)
  | .write (.immediate value) => some (.invalidOperand (Operand.immediate value).render)

end Access

/-- The accesses of an instruction with two operands, in order. A `mov` does not read its first
operand, and a `cmp` does not write it. -/
def Mnemonic.accesses (m : Mnemonic) (dst src : Operand) : List Access :=
  match m with
  | .mov => [.read src, .write dst]
  | .cmp => [.read dst, .read src]
  | _ => [.read dst, .read src, .write dst]

theorem Mnemonic.accesses_of_operation? {m : Mnemonic} {op : Alu.Operation}
    (h : m.operation? = some op) (dst src : Operand) :
    m.accesses dst src = [.read dst, .read src, .write dst] := by
  cases m <;> cases h <;> rfl

/-- The fault of the first access that has one. -/
def firstFault? (memory : Memory) (state : State) (w : Width) (accesses : List Access) :
    Option ExecutionError :=
  accesses.findSome? (Access.fault? memory state w)

section

variable {memory : Memory} {state : State} {w : Width} {o dst src : Operand} {i : Instruction}

theorem firstFault?_cons (a : Access) (rest : List Access) :
    firstFault? memory state w (a :: rest) =
      (a.fault? memory state w).or (firstFault? memory state w rest) := by
  rw [firstFault?, firstFault?, List.findSome?_cons]
  cases a.fault? memory state w <;> rfl

theorem failsWith_read (o : Operand) :
    FailsWith ((Access.read o).fault? memory state w) (o.read memory state w) := by
  cases o with
  | register v => exact ⟨_, rfl⟩
  | immediate value => exact ⟨_, rfl⟩
  | label name target => rfl
  | memory m =>
    simp only [Access.fault?]
    split
    · next hin => exact ⟨_, mapError_eq_ok_iff.2 (Memory.read_eq hin)⟩
    · next hout =>
      refine mapError_eq_error_iff.2 ⟨_, ?_, rfl⟩
      rw [Memory.read, Memory.readBytes_of_not_inBounds hout]
      rfl

theorem failsWith_write (o : Operand) (value : UInt64) :
    FailsWith ((Access.write o).fault? memory state w) (o.write memory state w value) := by
  cases o with
  | register v => exact ⟨_, rfl⟩
  | immediate value => rfl
  | label name target => rfl
  | memory m =>
    simp only [Access.fault?]
    split
    · next hin => exact ⟨_, storeEffect_eq hin⟩
    · next hout => exact storeEffect_of_not_inBounds hout

/-! ### Handlers -/

theorem mov_failsWith (ho : i.operands = [dst, src])
    (hmemory : (dst.isMemory && src.isMemory) = false) (hw : i.commonWidth dst src = .ok w) :
    FailsWith (firstFault? memory state w (Mnemonic.accesses .mov dst src))
      (Handler.mov memory state i) := by
  simp only [Handler.mov, Instruction.pair_eq ho, ok_bind, hmemory, hw, Mnemonic.accesses,
    firstFault?_cons]
  refine (failsWith_read src).bind fun value _ => ?_
  exact (failsWith_write dst value).bind fun e _ => ⟨_, rfl⟩

theorem binary_failsWith {m : Mnemonic} {op : Alu.Operation} (hm : m.operation? = some op)
    (ho : i.operands = [dst, src]) (hw : i.commonWidth dst src = .ok w) :
    FailsWith (firstFault? memory state w (m.accesses dst src))
      (Handler.binary op memory state i) := by
  simp only [Handler.binary, Instruction.pair_eq ho, ok_bind, hw,
    Mnemonic.accesses_of_operation? hm, firstFault?_cons]
  refine (failsWith_read dst).bind fun a _ => ?_
  refine (failsWith_read src).bind fun b _ => ?_
  exact (failsWith_write dst _).bind fun e _ => ⟨_, rfl⟩

theorem cmp_failsWith (ho : i.operands = [dst, src]) (hw : i.commonWidth dst src = .ok w) :
    FailsWith (firstFault? memory state w (Mnemonic.accesses .cmp dst src))
      (Handler.cmp memory state i) := by
  simp only [Handler.cmp, Instruction.pair_eq ho, ok_bind, hw, Mnemonic.accesses,
    firstFault?_cons]
  refine (failsWith_read dst).bind fun a _ => ?_
  exact (failsWith_read src).bind fun b _ => ⟨_, rfl⟩

end

/-! ## Shapes -/

/-- The mnemonics of the instructions with two operands that are used at one width. -/
def Mnemonic.atOneWidth : List Mnemonic := [.mov, .add, .sub, .cmp, .and, .or, .xor]

theorem Mnemonic.cases_of_mem_atOneWidth {m : Mnemonic} (hm : m ∈ atOneWidth) :
    m = .mov ∨ (∃ op, m.operation? = some op) ∨ m = .cmp := by
  simp only [atOneWidth, List.mem_cons, List.not_mem_nil, or_false] at hm
  rcases hm with rfl | rfl | rfl | rfl | rfl | rfl | rfl
  · exact Or.inl rfl
  · exact Or.inr (Or.inl ⟨_, rfl⟩)
  · exact Or.inr (Or.inl ⟨_, rfl⟩)
  · exact Or.inr (Or.inr rfl)
  · exact Or.inr (Or.inl ⟨_, rfl⟩)
  · exact Or.inr (Or.inl ⟨_, rfl⟩)
  · exact Or.inr (Or.inl ⟨_, rfl⟩)

/-- Whether a `mov` would have to copy from memory to memory. -/
def MovesMemory (m : Mnemonic) (dst src : Operand) : Prop :=
  m = .mov ∧ dst.isMemory = true ∧ src.isMemory = true

instance (m : Mnemonic) (dst src : Operand) : Decidable (MovesMemory m dst src) :=
  inferInstanceAs (Decidable (_ ∧ _ ∧ _))

/-- The two operands have a width in common: one of them fixes it, and the other one fixes no
other. -/
structure HaveWidth (dst src : Operand) (w : Width) : Prop where
  fixed : dst.width? = some w ∨ src.width? = some w
  dst_eq : ∀ v, dst.width? = some v → v = w
  src_eq : ∀ v, src.width? = some v → v = w

/-- The conditions under which two operands can be used at a width. -/
structure Usable (m : Mnemonic) (memory : Memory) (state : State) (dst src : Operand) (w : Width) :
    Prop where
  not_movesMemory : ¬MovesMemory m dst src
  haveWidth : HaveWidth dst src w
  not_label : ∀ name target, dst ≠ .label name target ∧ src ≠ .label name target
  not_immediate : m ≠ .cmp → ∀ value, dst ≠ .immediate value
  in_bounds : ∀ r, dst = .memory r ∨ src = .memory r →
    (r.address state).toNat + w.bytes ≤ memory.size

/-- The errors of an instruction with two operands, each with what has to be in order before it. -/
inductive Refuses (m : Mnemonic) (memory : Memory) (state : State) (i : Instruction) :
    ExecutionError → Prop
  | operandCount (ho : ∀ dst src, i.operands ≠ [dst, src]) :
      Refuses m memory state i (.operandCount i.render)
  | memoryToMemory {dst src : Operand} (ho : i.operands = [dst, src])
      (hmemory : MovesMemory m dst src) : Refuses m memory state i (.memoryToMemory i.render)
  | widthMismatch {dst src : Operand} {a b : Width} (ho : i.operands = [dst, src])
      (hmemory : ¬MovesMemory m dst src) (ha : dst.width? = some a) (hb : src.width? = some b)
      (hne : a ≠ b) : Refuses m memory state i (.widthMismatch i.render)
  | ambiguousWidth {dst src : Operand} (ho : i.operands = [dst, src])
      (hmemory : ¬MovesMemory m dst src) (hdst : dst.width? = none) (hsrc : src.width? = none) :
      Refuses m memory state i (.ambiguousWidth i.render)
  | access {dst src : Operand} {w : Width} {e : ExecutionError} (ho : i.operands = [dst, src])
      (hmemory : ¬MovesMemory m dst src) (hw : HaveWidth dst src w)
      (he : firstFault? memory state w (m.accesses dst src) = some e) :
      Refuses m memory state i e

section

variable {m : Mnemonic} {handler : Handler} {memory : Memory} {state : State} {w : Width}
  {dst src : Operand} {i : Instruction} {e : ExecutionError}

theorem commonWidth_eq_ok_iff_haveWidth : i.commonWidth dst src = .ok w ↔ HaveWidth dst src w := by
  have hfixed (o : Operand) : o.width?.getD w = w ↔ ∀ v, o.width? = some v → v = w := by
    cases o.width? <;> simp
  rw [Instruction.commonWidth_eq_ok_iff, hfixed, hfixed]
  constructor
  · intro ⟨hdst, hsrc, hsome⟩
    refine ⟨hsome.imp (fun h => ?_) (fun h => ?_), hdst, hsrc⟩
    · obtain ⟨v, hv⟩ := Option.isSome_iff_exists.1 h
      rw [hv, hdst v hv]
    · obtain ⟨v, hv⟩ := Option.isSome_iff_exists.1 h
      rw [hv, hsrc v hv]
  · intro h
    refine ⟨h.dst_eq, h.src_eq, h.fixed.imp (fun hw => ?_) (fun hw => ?_)⟩ <;> rw [hw] <;> rfl

/-- Two operands have no width in common only because they fix different ones, or none. -/
theorem haveWidth_cases (dst src : Operand) :
    (∃ w, HaveWidth dst src w) ∨
      (∃ a b, dst.width? = some a ∧ src.width? = some b ∧ a ≠ b) ∨
        dst.width? = none ∧ src.width? = none := by
  cases hdst : dst.width? with
  | none =>
    cases hsrc : src.width? with
    | none => exact Or.inr (Or.inr ⟨rfl, rfl⟩)
    | some b => exact Or.inl ⟨b, Or.inr hsrc, by simp [hdst], by simp [hsrc]⟩
  | some a =>
    cases hsrc : src.width? with
    | none => exact Or.inl ⟨a, Or.inl hdst, by simp [hdst], by simp [hsrc]⟩
    | some b =>
      by_cases hab : a = b
      · exact Or.inl ⟨a, Or.inl hdst, by simp [hdst], by simp [hsrc, hab]⟩
      · exact Or.inr (Or.inl ⟨a, b, rfl, rfl, hab⟩)

/-! ### Operands that can be accessed -/

theorem fault?_read_eq_none_iff :
    (Access.read o).fault? memory state w = none ↔
      (∀ name target, o ≠ .label name target) ∧
        ∀ r, o = .memory r → (r.address state).toNat + w.bytes ≤ memory.size := by
  cases o <;> simp [Access.fault?]

theorem fault?_write_eq_none_iff :
    (Access.write o).fault? memory state w = none ↔
      (∀ name target, o ≠ .label name target) ∧ (∀ value, o ≠ .immediate value) ∧
        ∀ r, o = .memory r → (r.address state).toNat + w.bytes ≤ memory.size := by
  cases o <;> simp [Access.fault?]

/-- No access faults if both operands are values and the first is also a place, unless it is only
compared. -/
theorem firstFault?_accesses_eq_none_iff (hm : m ∈ Mnemonic.atOneWidth) :
    firstFault? memory state w (m.accesses dst src) = none ↔
      (Access.read dst).fault? memory state w = none ∧
        (Access.read src).fault? memory state w = none ∧
        (m ≠ .cmp → (Access.write dst).fault? memory state w = none) := by
  have hplace : (Access.write dst).fault? memory state w = none →
      (Access.read dst).fault? memory state w = none := by
    rw [fault?_read_eq_none_iff, fault?_write_eq_none_iff]
    exact fun h => ⟨h.1, h.2.2⟩
  have hnil : firstFault? memory state w [] = none := rfl
  rcases Mnemonic.cases_of_mem_atOneWidth hm with rfl | ⟨op, hop⟩ | rfl
  · simp only [Mnemonic.accesses, firstFault?_cons, Option.or_eq_none_iff, hnil, and_true]
    exact ⟨fun h => ⟨hplace h.2, h.1, fun _ => h.2⟩, fun h => ⟨h.2.1, h.2.2 (by decide)⟩⟩
  · have hcmp : m ≠ .cmp := by
      intro heq
      rw [heq] at hop
      cases hop
    simp only [Mnemonic.accesses_of_operation? hop, firstFault?_cons, Option.or_eq_none_iff, hnil,
      and_true]
    exact ⟨fun h => ⟨h.1, h.2.1, fun _ => h.2.2⟩, fun h => ⟨h.1, h.2.1, h.2.2 hcmp⟩⟩
  · simp only [Mnemonic.accesses, firstFault?_cons, Option.or_eq_none_iff, hnil, and_true]
    exact ⟨fun h => ⟨h.1, h.2, fun hcmp => absurd rfl hcmp⟩, fun h => ⟨h.1, h.2.1⟩⟩

theorem usable_iff (hm : m ∈ Mnemonic.atOneWidth) :
    Usable m memory state dst src w ↔
      ¬MovesMemory m dst src ∧ HaveWidth dst src w ∧
        firstFault? memory state w (m.accesses dst src) = none := by
  rw [firstFault?_accesses_eq_none_iff hm, fault?_read_eq_none_iff, fault?_read_eq_none_iff,
    fault?_write_eq_none_iff]
  constructor
  · intro h
    refine ⟨h.not_movesMemory, h.haveWidth, ⟨fun name target => (h.not_label name target).1, ?_⟩,
      ⟨fun name target => (h.not_label name target).2, ?_⟩, fun hcmp =>
        ⟨fun name target => (h.not_label name target).1, h.not_immediate hcmp, ?_⟩⟩
    · exact fun r hr => h.in_bounds r (Or.inl hr)
    · exact fun r hr => h.in_bounds r (Or.inr hr)
    · exact fun r hr => h.in_bounds r (Or.inl hr)
  · intro ⟨hmemory, hw, ⟨hdst, hdstIn⟩, ⟨hsrc, hsrcIn⟩, hplace⟩
    exact
      { not_movesMemory := hmemory
        haveWidth := hw
        not_label := fun name target => ⟨hdst name target, hsrc name target⟩
        not_immediate := fun hcmp => (hplace hcmp).2.1
        in_bounds := fun r hr => hr.elim (hdstIn r) (hsrcIn r) }

/-! ## Outcomes -/

theorem handler_cases (hm : m ∈ Mnemonic.atOneWidth) (hh : m.handler? = some handler) :
    (m = .mov ∧ handler = Handler.mov) ∨
      (∃ op, m.operation? = some op ∧ handler = Handler.binary op) ∨
        m = .cmp ∧ handler = Handler.cmp := by
  rcases Mnemonic.cases_of_mem_atOneWidth hm with rfl | ⟨op, hop⟩ | rfl
  · cases hh
    exact Or.inl ⟨rfl, rfl⟩
  · rw [Mnemonic.handler?_of_operation? hop] at hh
    cases hh
    exact Or.inr (Or.inl ⟨op, hop, rfl⟩)
  · cases hh
    exact Or.inr (Or.inr ⟨rfl, rfl⟩)

theorem not_movesMemory_mov_iff :
    ¬MovesMemory .mov dst src ↔ (dst.isMemory && src.isMemory) = false := by
  rw [← Bool.not_eq_true, Bool.and_eq_true, not_iff_not]
  exact ⟨fun h => h.2, fun h => ⟨rfl, h⟩⟩

/-- The operands are counted first. -/
theorem handler_eq_pair_bind (hm : m ∈ Mnemonic.atOneWidth) (hh : m.handler? = some handler)
    (memory : Memory) (state : State) (i : Instruction) :
    ∃ f, handler memory state i = i.pair >>= f := by
  rcases handler_cases hm hh with ⟨rfl, rfl⟩ | ⟨op, hop, rfl⟩ | ⟨rfl, rfl⟩
  · exact ⟨_, rfl⟩
  · exact ⟨_, rfl⟩
  · exact ⟨_, rfl⟩

/-- A width is looked for next. -/
theorem handler_eq_commonWidth_bind (hm : m ∈ Mnemonic.atOneWidth) (hh : m.handler? = some handler)
    (ho : i.operands = [dst, src]) (hmemory : ¬MovesMemory m dst src) (memory : Memory)
    (state : State) : ∃ f, handler memory state i = i.commonWidth dst src >>= f := by
  rcases handler_cases hm hh with ⟨rfl, rfl⟩ | ⟨op, hop, rfl⟩ | ⟨rfl, rfl⟩
  · rw [not_movesMemory_mov_iff] at hmemory
    simp only [Handler.mov, Instruction.pair_eq ho, ok_bind, hmemory]
    exact ⟨_, rfl⟩
  · rw [Handler.binary, Instruction.pair_eq ho, ok_bind]
    exact ⟨_, rfl⟩
  · rw [Handler.cmp, Instruction.pair_eq ho, ok_bind]
    exact ⟨_, rfl⟩

/-- The accesses are made last. -/
theorem failsWith_firstFault (hm : m ∈ Mnemonic.atOneWidth) (hh : m.handler? = some handler)
    (ho : i.operands = [dst, src]) (hmemory : ¬MovesMemory m dst src) (hw : HaveWidth dst src w)
    (memory : Memory) (state : State) :
    FailsWith (firstFault? memory state w (m.accesses dst src)) (handler memory state i) := by
  have hcommon : i.commonWidth dst src = .ok w := commonWidth_eq_ok_iff_haveWidth.2 hw
  rcases handler_cases hm hh with ⟨rfl, rfl⟩ | ⟨op, hop, rfl⟩ | ⟨rfl, rfl⟩
  · exact mov_failsWith ho (not_movesMemory_mov_iff.1 hmemory) hcommon
  · exact binary_failsWith hop ho hcommon
  · exact cmp_failsWith ho hcommon

theorem error_of_refuses (hm : m ∈ Mnemonic.atOneWidth) (hh : m.handler? = some handler)
    {error : ExecutionError} (h : Refuses m memory state i error) :
    handler memory state i = .error error := by
  cases h with
  | operandCount ho =>
    obtain ⟨f, hf⟩ := handler_eq_pair_bind hm hh memory state i
    rw [hf, Instruction.pair_eq_error ho]
    rfl
  | memoryToMemory ho hmemory =>
    obtain ⟨rfl, hdst, hsrc⟩ := hmemory
    cases hh
    simp only [Handler.mov, Instruction.pair_eq ho, ok_bind, hdst, hsrc]
    rfl
  | widthMismatch ho hmemory ha hb hne =>
    obtain ⟨f, hf⟩ := handler_eq_commonWidth_bind hm hh ho hmemory memory state
    rw [hf, Instruction.commonWidth, ha, hb]
    simp only [if_neg hne]
    rfl
  | ambiguousWidth ho hmemory hdst hsrc =>
    obtain ⟨f, hf⟩ := handler_eq_commonWidth_bind hm hh ho hmemory memory state
    rw [hf, Instruction.commonWidth, hdst, hsrc]
    rfl
  | access ho hmemory hw he =>
    have hfails := failsWith_firstFault hm hh ho hmemory hw memory state
    rw [he] at hfails
    exact hfails

theorem ok_of_usable (hm : m ∈ Mnemonic.atOneWidth) (hh : m.handler? = some handler)
    (ho : i.operands = [dst, src]) (h : Usable m memory state dst src w) :
    ∃ e, handler memory state i = .ok e := by
  obtain ⟨hmemory, hw, hnone⟩ := (usable_iff hm).1 h
  have hfails := failsWith_firstFault hm hh ho hmemory hw memory state
  rw [hnone] at hfails
  exact hfails

/-- There is an error, or there are two operands and they are usable. -/
theorem refuses_or_usable (hm : m ∈ Mnemonic.atOneWidth) (memory : Memory) (state : State)
    (i : Instruction) :
    (∃ error, Refuses m memory state i error) ∨
      ∃ dst src w, i.operands = [dst, src] ∧ Usable m memory state dst src w := by
  by_cases hpair : ∃ dst src, i.operands = [dst, src]
  · obtain ⟨dst, src, ho⟩ := hpair
    by_cases hmemory : MovesMemory m dst src
    · exact Or.inl ⟨_, .memoryToMemory ho hmemory⟩
    · rcases haveWidth_cases dst src with ⟨w, hw⟩ | ⟨a, b, ha, hb, hne⟩ | ⟨hdst, hsrc⟩
      · cases hfault : firstFault? memory state w (m.accesses dst src) with
        | some error => exact Or.inl ⟨error, .access ho hmemory hw hfault⟩
        | none => exact Or.inr ⟨dst, src, w, ho, (usable_iff hm).2 ⟨hmemory, hw, hfault⟩⟩
      · exact Or.inl ⟨_, .widthMismatch ho hmemory ha hb hne⟩
      · exact Or.inl ⟨_, .ambiguousWidth ho hmemory hdst hsrc⟩
  · exact Or.inl ⟨_, .operandCount fun dst src ho => hpair ⟨dst, src, ho⟩⟩

end

/-- A `mov`, an operation or a `cmp` succeeds exactly when it has two operands that are usable at
some width, and otherwise it fails with the error that `Refuses` gives. The address of a reference
is the sum of its base and its displacement modulo `2 ^ 64`, and the bytes from there on have to lie
in bounds as natural numbers. -/
theorem two_operands_outcome {m : Mnemonic} (hm : m ∈ Mnemonic.atOneWidth) {handler : Handler}
    (hh : m.handler? = some handler) (memory : Memory) (state : State) (i : Instruction) :
    (∀ r : Reference,
        ((r.address state).toNat : Int) =
          (r.baseValue state + r.displacement.toInt) % UInt64.size) ∧
      ((∃ e, handler memory state i = .ok e) ↔
        ∃ dst src w, i.operands = [dst, src] ∧ Usable m memory state dst src w) ∧
      ∀ error, handler memory state i = .error error ↔ Refuses m memory state i error := by
  refine ⟨fun r => r.toNat_address state, ⟨fun ⟨e, he⟩ => ?_, fun ⟨dst, src, w, ho, h⟩ => ?_⟩,
    fun error => ⟨fun herror => ?_, error_of_refuses hm hh⟩⟩
  · rcases refuses_or_usable hm memory state i with ⟨error, h⟩ | h
    · rw [error_of_refuses hm hh h] at he
      cases he
    · exact h
  · exact ok_of_usable hm hh ho h
  · rcases refuses_or_usable hm memory state i with ⟨error', h⟩ | ⟨dst, src, w, ho, h⟩
    · rw [error_of_refuses hm hh h] at herror
      cases herror
      exact h
    · obtain ⟨e, he⟩ := ok_of_usable hm hh ho h
      rw [he] at herror
      cases herror

/-- A `mov` of a number to a double word one byte behind `rax`. -/
def moveBehind : Instruction :=
  ⟨.mov, [.memory ⟨some .dword, some .rax, 1⟩, .immediate 7], 1⟩

/-- The last address of all is in `rax`. -/
def atLastAddress : State := ({} : State).set .rax 0xffffffffffffffff

/-- The address wraps around to zero. Four bytes of memory are enough for the double word, and three
are not. -/
theorem moveBehind_outcome :
    (∃ e, Handler.mov (.zeroed 4) atLastAddress moveBehind = .ok e) ∧
      Handler.mov (.zeroed 3) atLastAddress moveBehind =
        .error (.memory { address := 0, length := 4, size := 3 }) := by
  have hm : Mnemonic.mov ∈ Mnemonic.atOneWidth := by decide
  obtain ⟨-, hfits, -⟩ := two_operands_outcome hm rfl (.zeroed 4) atLastAddress moveBehind
  obtain ⟨-, -, hfails⟩ := two_operands_outcome hm rfl (.zeroed 3) atLastAddress moveBehind
  have hmemory : ¬MovesMemory .mov (.memory ⟨some .dword, some .rax, 1⟩) (.immediate 7) := by decide
  have hw : HaveWidth (.memory ⟨some .dword, some .rax, 1⟩) (.immediate 7) .dword :=
    ⟨Or.inl rfl, fun v hv => (Option.some.inj hv).symm, fun v hv => nomatch hv⟩
  refine ⟨hfits.2 ⟨_, _, .dword, rfl, (usable_iff hm).2 ⟨hmemory, hw, ?_⟩⟩,
    (hfails _).2 (.access rfl hmemory hw ?_)⟩
  · decide +kernel
  · decide +kernel

end X64
