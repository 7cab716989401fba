import X64.Alu
import X64.Instruction
import X64.Memory

/-!
# What instructions do

An instruction looks at memory and at the registers. It either fails, and then nothing has changed,
or it has an effect: the next registers and flags, and at most one store to memory. All instructions
but `syscall` are given here.

Instructions with two operands work at one width, which is taken from the operands that have one.
-/

namespace X64

/-- Why an instruction fails. The text is that of the instruction, or of the operand at fault. -/
inductive ExecutionError where
  | memory (error : OutOfBounds)
  | invalidOperand (text : String)
  | ambiguousWidth (text : String)
  | widthMismatch (text : String)
  | memoryToMemory (text : String)
  | operandCount (text : String)
  | unsupported (mnemonic : Mnemonic)
  deriving DecidableEq, Repr

namespace ExecutionError

/-- The wording of the error. -/
def message : ExecutionError → String
  | .memory error => "Memory error: " ++ error.message
  | .invalidOperand text => "Invalid operand in '" ++ text ++ "'"
  | .ambiguousWidth text => "Operand size of '" ++ text ++ "' cannot be determined"
  | .widthMismatch text => "Operand sizes of '" ++ text ++ "' do not match"
  | .memoryToMemory text => "Both operands of '" ++ text ++ "' are memory references"
  | .operandCount text => "Wrong number of operands in '" ++ text ++ "'"
  | .unsupported m => "No handler for '" ++ m.name ++ "'"

/-- The wording of the error and of the errors behind it, the outermost first. -/
def causes (e : ExecutionError) : List String :=
  match e with
  | .memory error => [e.message, error.message]
  | _ => [e.message]

end ExecutionError

/-! ## Effects -/

/-- A word to be stored. -/
structure Store where
  address : UInt64
  width : Width
  value : UInt64
  deriving DecidableEq, Repr

/-- What an instruction changes: the registers and flags after it, and the word that it stores. -/
structure Effect where
  state : State
  store : Option Store := none
  deriving DecidableEq, Repr

namespace Effect

/-- The memory after an effect. -/
def commit (e : Effect) (memory : Memory) : Memory :=
  match e.store with
  | some s => memory.store s.address (bytesOfWord s.width.bytes s.value)
  | none => memory

/-- Applies a function to the registers and flags. -/
def mapState (f : State → State) (e : Effect) : Effect := { e with state := f e.state }

@[simp] theorem size_commit (e : Effect) (memory : Memory) :
    (e.commit memory).size = memory.size := by
  unfold commit
  split <;> simp

end Effect

/-- The effect of a store to memory that has to lie in bounds. -/
def storeEffect (memory : Memory) (state : State) (s : Store) : Except ExecutionError Effect :=
  match memory.check s.address s.width.bytes with
  | .ok () => .ok { state, store := some s }
  | .error error => .error (.memory error)

/-- Reads a word from memory. -/
def loadWord (memory : Memory) (address : UInt64) (w : Width) : Except ExecutionError UInt64 :=
  (memory.read address w).mapError .memory

/-! ## Operands -/

namespace Operand

/-- The value of an operand at a width, zero-extended. -/
def read (o : Operand) (memory : Memory) (state : State) (w : Width) :
    Except ExecutionError UInt64 :=
  match o with
  | .register v => .ok (w.truncate (state.read v))
  | .immediate value => .ok (w.truncate value.toUInt64)
  | .memory m => loadWord memory (m.address state) w
  | .label .. => .error (.invalidOperand o.render)

/-- The effect of giving an operand a new value at a width. -/
def write (o : Operand) (memory : Memory) (state : State) (w : Width) (value : UInt64) :
    Except ExecutionError Effect :=
  match o with
  | .register v => .ok { state := state.write v value }
  | .memory m => storeEffect memory state ⟨m.address state, w, value⟩
  | .immediate _ | .label .. => .error (.invalidOperand o.render)

end Operand

namespace Instruction

/-- The only operand. -/
def single (i : Instruction) : Except ExecutionError Operand :=
  match i.operands with
  | [o] => .ok o
  | _ => .error (.operandCount i.render)

/-- The two operands, the destination first. -/
def pair (i : Instruction) : Except ExecutionError (Operand × Operand) :=
  match i.operands with
  | [dst, src] => .ok (dst, src)
  | _ => .error (.operandCount i.render)

/-- The width at which two operands are used. -/
def commonWidth (i : Instruction) (dst src : Operand) : Except ExecutionError Width :=
  match dst.width?, src.width? with
  | some a, some b => if a = b then .ok a else .error (.widthMismatch i.render)
  | some a, none => .ok a
  | none, some b => .ok b
  | none, none => .error (.ambiguousWidth i.render)

/-- The instruction that the only operand stands for. -/
def target (i : Instruction) : Except ExecutionError Nat := do
  match ← i.single with
  | .label _ target => pure target
  | _ => throw (.invalidOperand i.render)

end Instruction

/-! ## The stack -/

/-- The number of bytes of a stack slot. -/
def slotSize : UInt64 := 8

/-- The effect of a push: `rsp` moves down by a slot, and the value is stored there. -/
def pushWord (memory : Memory) (state : State) (value : UInt64) : Except ExecutionError Effect :=
  let rsp := state.rsp - slotSize
  storeEffect memory (state.set .rsp rsp) ⟨rsp, .qword, value⟩

/-- The value on top of the stack, and the state after `rsp` has moved up by a slot. -/
def popWord (memory : Memory) (state : State) : Except ExecutionError (UInt64 × State) := do
  let value ← loadWord memory state.rsp .qword
  pure (value, state.set .rsp (state.rsp + slotSize))

/-! ## Instructions -/

/-- The effect of an instruction, given memory and the registers. -/
abbrev Handler := Memory → State → Instruction → Except ExecutionError Effect

namespace Handler

/-- `mov dst, src` copies a value. The flags stay as they are. -/
def mov : Handler := fun memory state i => do
  let (dst, src) ← i.pair
  if dst.isMemory && src.isMemory then throw (.memoryToMemory i.render)
  let w ← i.commonWidth dst src
  let value ← src.read memory state w
  let effect ← dst.write memory state w value
  pure (effect.mapState State.advance)

/-- `nop` moves on, whatever its operands are. -/
def nop : Handler := fun _ state _ => .ok { state := state.advance }

/-- An operation on two operands whose result goes to the first and to the flags. -/
def binary (op : Alu.Operation) : Handler := fun memory state i => do
  let (dst, src) ← i.pair
  let w ← i.commonWidth dst src
  let a ← dst.read memory state w
  let b ← src.read memory state w
  let result := op w a b
  let effect ← dst.write memory state w result.value
  pure (effect.mapState fun s => (s.withFlags result.flags).advance)

/-- `cmp a, b` sets the flags of `a - b` and stores nothing. -/
def cmp : Handler := fun memory state i => do
  let (dst, src) ← i.pair
  let w ← i.commonWidth dst src
  let a ← dst.read memory state w
  let b ← src.read memory state w
  pure { state := (state.withFlags (Alu.sub w a b).flags).advance }

/-- A shift of the first operand by the low byte of the second. A count of zero changes nothing but
`rip`. -/
def shift (op : Alu.Operation) : Handler := fun memory state i => do
  let (dst, src) ← i.pair
  match dst.width? with
  | none => throw (.ambiguousWidth i.render)
  | some w =>
    let count := Alu.shiftCount w (← src.read memory state .byte)
    if count = 0 then
      pure { state := state.advance }
    else
      let result := op w (← dst.read memory state w) count
      let effect ← dst.write memory state w result.value
      pure (effect.mapState fun s => (s.withFlags result.flags).advance)

/-- `push src` pushes a slot. An immediate is sign-extended, any other value zero-extended. -/
def push : Handler := fun memory state i => do
  let src ← i.single
  let value ←
    match src with
    | .immediate value => pure value.toUInt64
    | _ => src.read memory state (src.width?.getD .qword)
  let effect ← pushWord memory state value
  pure (effect.mapState State.advance)

/-- `pop dst` pops a slot, then writes the destination, whose address sees the new `rsp`. -/
def pop : Handler := fun memory state i => do
  let dst ← i.single
  let (value, state) ← popWord memory state
  let effect ← dst.write memory state (dst.width?.getD .qword) value
  pure (effect.mapState State.advance)

/-- `call label` pushes the index of the next instruction and jumps. -/
def call : Handler := fun memory state i => do
  let target ← i.target
  let effect ← pushWord memory state (state.rip + 1)
  pure (effect.mapState fun s => s.jump target)

/-- `ret` pops `rip`. -/
def ret : Handler := fun memory state i => do
  if !i.operands.isEmpty then throw (.operandCount i.render)
  let (value, state) ← popWord memory state
  pure { state := state.set .rip value }

/-- `jmp label` jumps. -/
def jmp : Handler := fun _ state i => do
  let target ← i.target
  pure { state := state.jump target }

/-- A conditional jump jumps if the condition of its mnemonic holds, and moves on otherwise. -/
def jumpIf : Handler := fun _ state i => do
  let target ← i.target
  match i.mnemonic.condition? with
  | some c => pure { state := if c.holds state.flags then state.jump target else state.advance }
  | none => throw (.unsupported i.mnemonic)

end Handler

/-- The handler of the instructions with a given mnemonic. A `syscall` has none, because it needs
the kernel. -/
def Mnemonic.handler? : Mnemonic → Option Handler
  | .push => some Handler.push
  | .pop => some Handler.pop
  | .mov => some Handler.mov
  | .add => some (Handler.binary Alu.add)
  | .sub => some (Handler.binary Alu.sub)
  | .cmp => some Handler.cmp
  | .and => some (Handler.binary Alu.and)
  | .or => some (Handler.binary Alu.or)
  | .xor => some (Handler.binary Alu.xor)
  | .shl => some (Handler.shift Alu.shiftLeft)
  | .shr => some (Handler.shift Alu.shiftRight)
  | .jmp => some Handler.jmp
  | .jumpIf _ => some Handler.jumpIf
  | .call => some Handler.call
  | .ret => some Handler.ret
  | .nop => some Handler.nop
  | .syscall => none

/-- The effect of an instruction. -/
def Instruction.effect (i : Instruction) (memory : Memory) (state : State) :
    Except ExecutionError Effect :=
  match i.mnemonic.handler? with
  | some handler => handler memory state i
  | none => .error (.unsupported i.mnemonic)

end X64
