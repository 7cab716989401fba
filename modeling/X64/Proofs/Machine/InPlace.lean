import X64.Proofs.Except
import X64.Proofs.Machine.Run

/-!
# Machines that work in place

`Machine.step` takes the effect of an instruction as a value and commits it at the end, so it has
nothing to undo when the instruction fails. A machine that works in place has no such moment. Its
routines change memory while they run, and a system call appends to the output while it is served.
What was changed before an error stays changed.

This module gives that machine, and it proves that the two are the same.

* `InPlace` is a computation that changes a store and may fail later on. `Routine` has one routine
  for each handler. A routine reads, computes and stores in the order in which the handler asks for
  the operands, and it returns the registers.
* `Settles` relates a routine to the effect that a handler gives. A look at memory keeps it
  (`settles_look`), and the routines that end in a store reach it through `settles_assign` and
  `settles_pushInPlace`. `settles_routine?` is the result for every mnemonic.
* `Machine.stepInPlace_eq` follows for whole steps. So an error never comes after a change, and
  `failing_step_is_atomic` says what a failing step leaves behind.
-/

namespace X64

/-! ## Computations in place -/

/-- A computation that changes a store of type `σ` while it runs. If it fails, the store stays as it
is then. -/
abbrev InPlace (σ ε α : Type) := ExceptT ε (StateM σ) α

namespace InPlace

variable {σ ε α β : Type}

/-- A computation that looks at the store and does not change it. -/
def look (f : σ → Except ε α) : InPlace σ ε α := fun s => (f s, s)

theorem look_bind_of_ok {f : σ → Except ε α} {s : σ} {a : α} (h : f s = .ok a)
    (g : α → InPlace σ ε β) : (look f >>= g) s = g a s := by
  show ExceptT.bindCont g (f s) s = g a s
  rw [h]
  rfl

theorem look_bind_of_error {f : σ → Except ε α} {s : σ} {e : ε} (h : f s = .error e)
    (g : α → InPlace σ ε β) : (look f >>= g) s = (.error e, s) := by
  show ExceptT.bindCont g (f s) s = _
  rw [h]
  rfl

/-- A sequence goes on from the store that its first part leaves, unless that part fails. -/
theorem bind_apply (run : InPlace σ ε α) (g : α → InPlace σ ε β) (s : σ) :
    (run >>= g) s =
      match run s with
      | (.ok a, s') => g a s'
      | (.error e, s') => (.error e, s') := by
  show (ExceptT.bindCont g (run s).1 : StateM σ _) (run s).2 = _
  rcases run s with ⟨_ | a, s'⟩ <;> rfl

theorem bind_eq_ok_iff {run : InPlace σ ε α} {g : α → InPlace σ ε β} {s s'' : σ} {b : β} :
    (run >>= g) s = (.ok b, s'') ↔ ∃ a s', run s = (.ok a, s') ∧ g a s' = (.ok b, s'') := by
  rw [bind_apply]
  constructor
  · intro h
    rcases hrun : run s with ⟨_ | a, s'⟩
    · rw [hrun] at h
      cases h
    · rw [hrun] at h
      exact ⟨a, s', rfl, h⟩
  · rintro ⟨a, s', hrun, hg⟩
    rw [hrun]
    exact hg

theorem bind_eq_error_iff {run : InPlace σ ε α} {g : α → InPlace σ ε β} {s s'' : σ} {e : ε} :
    (run >>= g) s = (.error e, s'') ↔
      run s = (.error e, s'') ∨ ∃ a s', run s = (.ok a, s') ∧ g a s' = (.error e, s'') := by
  rw [bind_apply]
  constructor
  · intro h
    rcases hrun : run s with ⟨_ | a, s'⟩
    · rw [hrun] at h
      cases h
      exact Or.inl rfl
    · rw [hrun] at h
      exact Or.inr ⟨a, s', rfl, h⟩
  · rintro (hrun | ⟨a, s', hrun, hg⟩)
    · rw [hrun]
    · rw [hrun]
      exact hg

end InPlace

open InPlace (look)

/-- Overwrites a word in memory. -/
def storeInPlace (address : UInt64) (w : Width) (value : UInt64) :
    InPlace Memory ExecutionError Unit := fun memory =>
  match memory.write address value w with
  | .ok memory' => (.ok (), memory')
  | .error error => (.error (.memory error), memory)

/-- Gives an operand a new value at a width. Memory is changed at once, and the registers are
returned. -/
def Operand.assign (o : Operand) (state : State) (w : Width) (value : UInt64) :
    InPlace Memory ExecutionError State :=
  match o with
  | .register v => pure (state.write v value)
  | .memory m => do
    storeInPlace (m.address state) w value
    pure state
  | .immediate _ | .label .. => throw (.invalidOperand o.render)

/-- Pushes a slot. -/
def pushInPlace (state : State) (value : UInt64) : InPlace Memory ExecutionError State := do
  let rsp := state.rsp - slotSize
  storeInPlace rsp .qword value
  pure (state.set .rsp rsp)

/-! ## Routines -/

/-- The instruction that a handler stands for, carried out in place. -/
abbrev Routine := State → Instruction → InPlace Memory ExecutionError State

namespace Routine

/-- `mov dst, src` -/
def mov : Routine := fun state i => do
  let (dst, src) ← look fun _ => i.pair
  if dst.isMemory && src.isMemory then throw (.memoryToMemory i.render)
  let w ← look fun _ => i.commonWidth dst src
  let value ← look fun memory => src.read memory state w
  let next ← dst.assign state w value
  pure next.advance

/-- `nop` -/
def nop : Routine := fun state _ => pure state.advance

/-- An operation on two operands. -/
def binary (op : Alu.Operation) : Routine := fun state i => do
  let (dst, src) ← look fun _ => i.pair
  let w ← look fun _ => i.commonWidth dst src
  let a ← look fun memory => dst.read memory state w
  let b ← look fun memory => src.read memory state w
  let result := op w a b
  let next ← dst.assign state w result.value
  pure (next.withFlags result.flags).advance

/-- `cmp a, b` -/
def cmp : Routine := fun state i => do
  let (dst, src) ← look fun _ => i.pair
  let w ← look fun _ => i.commonWidth dst src
  let a ← look fun memory => dst.read memory state w
  let b ← look fun memory => src.read memory state w
  pure (state.withFlags (Alu.sub w a b).flags).advance

/-- A shift. -/
def shift (op : Alu.Operation) : Routine := fun state i => do
  let (dst, src) ← look fun _ => i.pair
  match dst.width? with
  | none => throw (.ambiguousWidth i.render)
  | some w =>
    let count := Alu.shiftCount w (← look fun memory => src.read memory state .byte)
    if count = 0 then
      pure state.advance
    else
      let result := op w (← look fun memory => dst.read memory state w) count
      let next ← dst.assign state w result.value
      pure (next.withFlags result.flags).advance

/-- `push src` -/
def push : Routine := fun state i => do
  let src ← look fun _ => i.single
  let value ←
    match src with
    | .immediate value => pure value.toUInt64
    | _ => look fun memory => src.read memory state (src.width?.getD .qword)
  let next ← pushInPlace state value
  pure next.advance

/-- `pop dst` -/
def pop : Routine := fun state i => do
  let dst ← look fun _ => i.single
  let (value, next) ← look fun memory => popWord memory state
  let next ← dst.assign next (dst.width?.getD .qword) value
  pure next.advance

/-- `call label` -/
def call : Routine := fun state i => do
  let target ← look fun _ => i.target
  let next ← pushInPlace state (state.rip + 1)
  pure (next.jump target)

/-- `ret` -/
def ret : Routine := fun state i => do
  if !i.operands.isEmpty then throw (.operandCount i.render)
  let (value, next) ← look fun memory => popWord memory state
  pure (next.set .rip value)

/-- `jmp label` -/
def jmp : Routine := fun state i => do
  let target ← look fun _ => i.target
  pure (state.jump target)

/-- A conditional jump. -/
def jumpIf : Routine := fun state i => do
  let target ← look fun _ => i.target
  match i.mnemonic.condition? with
  | some c => pure (if c.holds state.flags then state.jump target else state.advance)
  | none => throw (.unsupported i.mnemonic)

end Routine

/-- The routine of the instructions with a given mnemonic. -/
def Mnemonic.routine? : Mnemonic → Option Routine
  | .push => some Routine.push
  | .pop => some Routine.pop
  | .mov => some Routine.mov
  | .add => some (Routine.binary Alu.add)
  | .sub => some (Routine.binary Alu.sub)
  | .cmp => some Routine.cmp
  | .and => some (Routine.binary Alu.and)
  | .or => some (Routine.binary Alu.or)
  | .xor => some (Routine.binary Alu.xor)
  | .shl => some (Routine.shift Alu.shiftLeft)
  | .shr => some (Routine.shift Alu.shiftRight)
  | .jmp => some Routine.jmp
  | .jumpIf _ => some Routine.jumpIf
  | .call => some Routine.call
  | .ret => some Routine.ret
  | .nop => some Routine.nop
  | .syscall => none

/-- Carries out an instruction in place. -/
def Instruction.runInPlace (i : Instruction) : State → InPlace Memory ExecutionError State :=
  fun state =>
    match i.mnemonic.routine? with
    | some routine => routine state i
    | none => throw (.unsupported i.mnemonic)

/-! ## Routines and effects -/

/-- On the given memory, a computation in place does what an effect says: it gives the registers of
the effect and leaves the memory after it, or it fails in the same way and leaves memory alone. -/
def Settles (run : InPlace Memory ExecutionError State) (effect : Except ExecutionError Effect)
    (memory : Memory) : Prop :=
  run memory =
    match effect with
    | .ok e => (.ok e.state, e.commit memory)
    | .error error => (.error error, memory)

section

variable {memory : Memory} {state : State} {α : Type}

theorem settles_pure (state : State) (memory : Memory) :
    Settles (pure state) (.ok { state }) memory := rfl

theorem settles_throw (error : ExecutionError) (memory : Memory) :
    Settles (throw error) (.error error) memory := rfl

/-- A look at memory keeps what comes after it settled. -/
theorem settles_look {f : Memory → Except ExecutionError α}
    {g : α → InPlace Memory ExecutionError State} {h : α → Except ExecutionError Effect}
    (hsettles : ∀ a, Settles (g a) (h a) memory) :
    Settles (look f >>= g) (f memory >>= h) memory := by
  unfold Settles
  cases hf : f memory with
  | error error => exact InPlace.look_bind_of_error hf g
  | ok a => exact (InPlace.look_bind_of_ok hf g).trans (hsettles a)

/-- The registers may still be changed at the end. -/
theorem settles_map {run : InPlace Memory ExecutionError State}
    {effect : Except ExecutionError Effect} (h : Settles run effect memory) (f : State → State) :
    Settles (run >>= fun next => pure (f next)) (effect >>= fun e => pure (e.mapState f))
      memory := by
  unfold Settles at h ⊢
  show (ExceptT.bindCont _ (run memory).1 : StateM Memory _) (run memory).2 = _
  rw [h]
  cases effect <;> rfl

/-- A store to memory. -/
theorem settles_store (address : UInt64) (w : Width) (value : UInt64) (state : State)
    (memory : Memory) :
    Settles (storeInPlace address w value >>= fun _ => pure state)
      (storeEffect memory state ⟨address, w, value⟩) memory := by
  unfold Settles
  show (ExceptT.bindCont _ (storeInPlace address w value memory).1 : StateM Memory _)
    (storeInPlace address w value memory).2 = _
  simp only [storeInPlace, storeEffect, Memory.write, Memory.writeBytes, length_bytesOfWord]
  cases memory.check address w.bytes <;> rfl

theorem settles_assign (o : Operand) (state : State) (w : Width) (value : UInt64)
    (memory : Memory) :
    Settles (o.assign state w value) (o.write memory state w value) memory := by
  cases o with
  | register v => exact settles_pure _ memory
  | memory m => exact settles_store _ w value state memory
  | immediate x => exact settles_throw _ memory
  | label name target => exact settles_throw _ memory

theorem settles_pushInPlace (state : State) (value : UInt64) (memory : Memory) :
    Settles (pushInPlace state value) (pushWord memory state value) memory :=
  settles_store _ .qword value _ memory

/-! ### One routine after the other -/

variable (memory : Memory) (state : State) (i : Instruction)

theorem settles_mov : Settles (Routine.mov state i) (Handler.mov memory state i) memory := by
  refine settles_look fun operands => ?_
  obtain ⟨dst, src⟩ := operands
  cases hmemory : dst.isMemory && src.isMemory with
  | true =>
    simp only [hmemory]
    exact settles_throw _ memory
  | false =>
    simp only [hmemory]
    refine settles_look fun w => settles_look fun value => ?_
    exact settles_map (settles_assign dst state w value memory) State.advance

theorem settles_binary (op : Alu.Operation) :
    Settles (Routine.binary op state i) (Handler.binary op memory state i) memory := by
  refine settles_look fun operands => settles_look fun w => ?_
  refine settles_look fun a => settles_look fun b => ?_
  exact settles_map (settles_assign operands.1 state w (op w a b).value memory)
    fun s => (s.withFlags (op w a b).flags).advance

theorem settles_cmp : Settles (Routine.cmp state i) (Handler.cmp memory state i) memory := by
  refine settles_look fun operands => settles_look fun w => ?_
  refine settles_look fun a => settles_look fun b => ?_
  exact settles_pure _ memory

theorem settles_shift (op : Alu.Operation) :
    Settles (Routine.shift op state i) (Handler.shift op memory state i) memory := by
  refine settles_look fun operands => ?_
  obtain ⟨dst, src⟩ := operands
  cases hw : dst.width? with
  | none =>
    simp only [hw]
    exact settles_throw _ memory
  | some w =>
    simp only [hw]
    refine settles_look fun count => ?_
    by_cases hcount : Alu.shiftCount w count = 0
    · simp only [if_pos hcount]
      exact settles_pure _ memory
    · simp only [if_neg hcount]
      refine settles_look fun value => ?_
      exact settles_map (settles_assign dst state w (op w value _).value memory)
        fun s => (s.withFlags (op w value _).flags).advance

theorem settles_push : Settles (Routine.push state i) (Handler.push memory state i) memory := by
  refine settles_look fun src => ?_
  have hpush : ∀ value, Settles (pushInPlace state value >>= fun next => pure next.advance)
      (pushWord memory state value >>= fun e => pure (e.mapState State.advance)) memory :=
    fun value => settles_map (settles_pushInPlace state value memory) State.advance
  cases src with
  | immediate x => exact hpush x.toUInt64
  | register v => exact settles_look hpush
  | memory m => exact settles_look hpush
  | label name target => exact settles_look hpush

theorem settles_pop : Settles (Routine.pop state i) (Handler.pop memory state i) memory := by
  refine settles_look fun dst => settles_look fun top => ?_
  exact settles_map (settles_assign dst top.2 _ top.1 memory) State.advance

theorem settles_call : Settles (Routine.call state i) (Handler.call memory state i) memory := by
  refine settles_look fun target => ?_
  exact settles_map (settles_pushInPlace state _ memory) fun s => s.jump target

theorem settles_ret : Settles (Routine.ret state i) (Handler.ret memory state i) memory := by
  unfold Routine.ret Handler.ret
  cases hoperands : i.operands.isEmpty with
  | true => exact settles_look fun top => settles_pure _ memory
  | false => exact settles_throw _ memory

theorem settles_jmp : Settles (Routine.jmp state i) (Handler.jmp memory state i) memory :=
  settles_look fun _ => settles_pure _ memory

theorem settles_jumpIf :
    Settles (Routine.jumpIf state i) (Handler.jumpIf memory state i) memory := by
  refine settles_look fun target => ?_
  cases i.mnemonic.condition? with
  | some c => exact settles_pure _ memory
  | none => exact settles_throw _ memory

/-- The routine of a mnemonic does what the handler of the mnemonic says. -/
theorem settles_routine? (m : Mnemonic) :
    Settles (m.routine?.elim (throw (.unsupported m)) fun routine => routine state i)
      (m.handler?.elim (.error (.unsupported m)) fun handler => handler memory state i) memory := by
  cases m with
  | push => exact settles_push memory state i
  | pop => exact settles_pop memory state i
  | mov => exact settles_mov memory state i
  | add => exact settles_binary memory state i Alu.add
  | sub => exact settles_binary memory state i Alu.sub
  | cmp => exact settles_cmp memory state i
  | and => exact settles_binary memory state i Alu.and
  | or => exact settles_binary memory state i Alu.or
  | xor => exact settles_binary memory state i Alu.xor
  | shl => exact settles_shift memory state i Alu.shiftLeft
  | shr => exact settles_shift memory state i Alu.shiftRight
  | jmp => exact settles_jmp memory state i
  | jumpIf c => exact settles_jumpIf memory state i
  | call => exact settles_call memory state i
  | ret => exact settles_ret memory state i
  | nop => exact settles_pure _ memory
  | syscall => exact settles_throw _ memory

end

/-- Carried out in place, an instruction does what its effect says. -/
theorem Instruction.settles_runInPlace (i : Instruction) (state : State) (memory : Memory) :
    Settles (i.runInPlace state) (i.effect memory state) memory := by
  have hsettles := settles_routine? memory state i i.mnemonic
  unfold runInPlace effect
  cases hroutine : i.mnemonic.routine? <;> cases hhandler : i.mnemonic.handler? <;>
    rw [hroutine, hhandler] at hsettles <;> exact hsettles

/-- A computation in place that fails has not changed memory. -/
theorem Settles.eq_of_error {run : InPlace Memory ExecutionError State}
    {effect : Except ExecutionError Effect} {memory memory' : Memory} {error : ExecutionError}
    (hsettles : Settles run effect memory) (h : run memory = (.error error, memory')) :
    memory' = memory := by
  cases effect with
  | error error' =>
    have heq : (Except.error error', memory) = (Except.error error, memory') :=
      hsettles.symm.trans h
    exact (congrArg Prod.snd heq).symm
  | ok e =>
    have heq : (Except.ok e.state, e.commit memory) = (Except.error error, memory') :=
      hsettles.symm.trans h
    cases heq

/-! ## System calls -/

/-- What the machine does after a system call: it goes on with the registers, or it exits. -/
inductive Served where
  | goOn (state : State)
  | exit (status : UInt64)

/-- Serves the system call that the registers ask for. Bytes are appended to a stream at once. -/
def Kernel.serveInPlace (k : Kernel) (memory : Memory) (state : State) :
    InPlace Output SyscallError Served :=
  match k.syscall? (state.get .rax) with
  | none => throw (.unknown k (state.get .rax))
  | some .exit => pure (.exit (state.get .rdi))
  | some .write =>
    match Stream.ofDescriptor? (state.get .rdi) with
    | none => throw (.badFileDescriptor (state.get .rdi))
    | some stream => do
      let length := state.get .rdx
      let bytes ← look fun _ =>
        (memory.readBytes (state.get .rsi) length.toNat).mapError .memory
      modify fun output => output.append stream bytes
      pure (.goOn (state.set .rax length).advance)

/-- What a system call leaves behind, given its effect: the machine after it and the output. -/
def SyscallEffect.settle (output : Output) : SyscallEffect → Served × Output
  | .write stream bytes state => (.goOn state, output.append stream bytes)
  | .exit status => (.exit status, output)

/-- Served in place, a system call does what its effect says, and a call that fails has not written
anything. -/
theorem Kernel.serveInPlace_eq (k : Kernel) (memory : Memory) (state : State) (output : Output) :
    k.serveInPlace memory state output =
      match k.serve memory state with
      | .ok effect => (.ok (effect.settle output).1, (effect.settle output).2)
      | .error error => (.error error, output) := by
  unfold serveInPlace serve
  cases k.syscall? (state.get .rax) with
  | none => rfl
  | some call =>
    cases call with
    | exit => rfl
    | write =>
      cases Stream.ofDescriptor? (state.get .rdi) with
      | none => rfl
      | some stream =>
        simp only
        cases hbytes : memory.readBytes (state.get .rsi) (state.get .rdx).toNat with
        | error error => rw [InPlace.look_bind_of_error (e := .memory error) (by rfl)]
        | ok bytes => rw [InPlace.look_bind_of_ok (a := bytes) (by rfl)]; rfl

/-! ## Steps in place -/

namespace Machine

/-- Runs one given instruction in place. -/
def performInPlace (m : Machine) (i : Instruction) : Machine × Except MachineError Unit :=
  if i.mnemonic = .syscall then
    match m.kernel.serveInPlace m.memory m.state m.output with
    | (.ok (.goOn state), output) => ({ m with state, output }, .ok ())
    | (.ok (.exit status), output) => ({ m with output, exitStatus := some status }, .ok ())
    | (.error error, output) => ({ m with output }, .error (.syscall error))
  else
    match i.runInPlace m.state m.memory with
    | (.ok state, memory) => ({ m with memory, state }, .ok ())
    | (.error error, memory) =>
      ({ m with memory }, .error (.instruction i.line i.render error))

/-- Runs the next instruction in place. A halted machine stays as it is. -/
def stepInPlace (m : Machine) : Machine × Except MachineError Unit :=
  match m.current? with
  | none => (m, .ok ())
  | some i => m.record.performInPlace i

theorem performInPlace_eq (m : Machine) (i : Instruction) :
    m.performInPlace i = m.perform i := by
  unfold performInPlace perform
  split
  · rw [Kernel.serveInPlace_eq]
    cases m.kernel.serve m.memory m.state with
    | error error => rfl
    | ok effect => cases effect <;> rfl
  · have hsettles := i.settles_runInPlace m.state m.memory
    unfold Settles at hsettles
    rw [hsettles]
    cases i.effect m.memory m.state <;> rfl

/-- A machine that works in place is the machine that commits its effects at the end. -/
theorem stepInPlace_eq (m : Machine) : m.stepInPlace = m.step := by
  unfold stepInPlace step
  cases m.current? with
  | none => rfl
  | some i => exact performInPlace_eq _ i

end Machine

/-- A failing step is atomic. A machine that works in place takes the steps of the machine that
commits its effects at the end. A step that fails leaves one more trace entry, with the registers as
they were, and nothing else, so it fails in the same way when it is taken again. No routine that
fails has changed memory, and no system call that fails has written to an output stream. -/
theorem failing_step_is_atomic :
    (∀ m : Machine, m.stepInPlace = m.step) ∧
      (∀ (m v : Machine) (error : MachineError), m.stepInPlace = (v, .error error) →
        v = { m with trace := m.trace.push ⟨m.state.rip, m.state.rsp⟩ } ∧
          v.stepInPlace =
            ({ v with trace := v.trace.push ⟨v.state.rip, v.state.rsp⟩ }, .error error)) ∧
      (∀ (m : Mnemonic) (routine : Routine) (state : State) (i : Instruction)
        (memory memory' : Memory) (error : ExecutionError), m.routine? = some routine →
          routine state i memory = (.error error, memory') → memory' = memory) ∧
      ∀ (k : Kernel) (memory : Memory) (state : State) (output output' : Output)
        (error : SyscallError),
          k.serveInPlace memory state output = (.error error, output') → output' = output := by
  refine ⟨Machine.stepInPlace_eq, ?_, ?_, ?_⟩
  · intro m v error h
    rw [Machine.stepInPlace_eq] at h ⊢
    exact Machine.step_error h
  · intro m routine state i memory memory' error hroutine h
    have hsettles := settles_routine? memory state i m
    rw [hroutine] at hsettles
    exact hsettles.eq_of_error h
  · intro k memory state output output' error h
    rw [Kernel.serveInPlace_eq] at h
    cases hserve : k.serve memory state with
    | error error' =>
      rw [hserve] at h
      exact (congrArg Prod.snd h).symm
    | ok effect =>
      rw [hserve] at h
      cases h

/-- A machine that is about to pop the only slot of its memory into the place above it. -/
def popAbove : Machine where
  program := { instructions := #[⟨.pop, [.memory ⟨some .qword, some .rsp, 0⟩], 1⟩] }
  kernel := .linux
  memory := Memory.zeroed 8
  state := {}

/-- The registers of a call that writes eight bytes from address two. -/
def writeEight : State :=
  ((((({} : State).set .rax 1).set .rdi 1).set .rsi 2).set .rdx 8)

/-- The error of the pop: eight bytes are missing above a memory of eight bytes. -/
def popAboveError : ExecutionError :=
  .memory { address := 8, length := 8, size := 8 }

/-- The slot can be read, and `rsp` moves up, before the place above turns out to be missing. -/
theorem popAbove_is_atomic :
    (∃ v, popAbove.stepInPlace = (v, .error (.instruction 1 "pop qword ptr [rsp]" popAboveError)) ∧
        v.state.rsp = 0 ∧ v.memory = popAbove.memory ∧ v.steps = 1 ∧
        v.stepInPlace.2 = .error (.instruction 1 "pop qword ptr [rsp]" popAboveError)) ∧
      (∃ memory, Routine.pop {} ⟨.pop, [.memory ⟨some .qword, some .rsp, 0⟩], 1⟩
            (Memory.zeroed 8) = (.error popAboveError, memory) ∧
        memory = Memory.zeroed 8) ∧
      ∃ output, Kernel.linux.serveInPlace (Memory.zeroed 4) writeEight {} =
          (.error (.memory { address := 2, length := 8, size := 4 }), output) ∧
        output = {} := by
  obtain ⟨-, hstep, hroutine, hserve⟩ := failing_step_is_atomic
  refine ⟨?_, ?_, ?_⟩
  · have herror : popAbove.stepInPlace.2 =
        .error (.instruction 1 "pop qword ptr [rsp]" popAboveError) := by decide +kernel
    obtain ⟨hv, hagain⟩ := hstep popAbove popAbove.stepInPlace.1
      (.instruction 1 "pop qword ptr [rsp]" popAboveError) (Prod.ext rfl herror)
    refine ⟨popAbove.stepInPlace.1, Prod.ext rfl herror, ?_, ?_, ?_, ?_⟩
    · rw [hv]; rfl
    · rw [hv]
    · rw [hv]; rfl
    · rw [hagain]
  · refine ⟨_, rfl, ?_⟩
    exact hroutine .pop _ {} ⟨.pop, [.memory ⟨some .qword, some .rsp, 0⟩], 1⟩ _ _ _ rfl rfl
  · refine ⟨(Kernel.linux.serveInPlace (Memory.zeroed 4) writeEight {}).2, rfl, ?_⟩
    exact hserve .linux (Memory.zeroed 4) writeEight {} _
      (.memory { address := 2, length := 8, size := 4 }) rfl

end X64
