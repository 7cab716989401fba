import X64.Labels
import X64.Mnemonic
import X64.Operand
import X64.Source.Line

/-!
# Reading operands

A branch takes the name of a label. Any other operand is a register, or a memory reference if its
text holds an opening bracket, or an immediate number. A reference is a sum of at most one register
and any numbers, each with its sign, and its displacement is computed modulo `2 ^ 64`. Letters may
be of either case, except in label names.
-/

namespace X64.Source

/-- What is wrong with the text of an operand. -/
inductive OperandError where
  | notLabel
  | unknownSize
  | notBracketed
  | emptyTerm
  | narrowRegister
  | extraRegister
  | unknownTerm
  | notOperand
  deriving DecidableEq, Repr, Inhabited

/-- The wording of an operand error. -/
def OperandError.message : OperandError → String
  | .notLabel => "branch target must be a label"
  | .unknownSize => "unknown operand size"
  | .notBracketed => "unsupported memory operand"
  | .emptyTerm => "empty address term"
  | .narrowRegister => "address registers must be 64-bit"
  | .extraRegister => "only a single added base register is supported"
  | .unknownTerm => "unsupported address term"
  | .notOperand => "expected a register, memory reference or immediate"

/-! ## Immediates -/

/-- The magnitude of an immediate: a hexadecimal number after `0x` or `0X`, or a decimal one. -/
def magnitude? : List Char → Option UInt64
  | '0' :: 'x' :: cs => Text.word? 16 cs
  | '0' :: 'X' :: cs => Text.word? 16 cs
  | cs => Text.word? 10 cs

/-- The value of an immediate. The magnitude is below `2 ^ 64` and is taken modulo `2 ^ 64`, so
`0xffffffffffffffff` is `-1`. Blanks may follow the minus sign. -/
def immediate? : List Char → Option Int64
  | '-' :: cs => (magnitude? (Text.trimStart cs)).map fun m => (-m).toInt64
  | cs => (magnitude? cs).map UInt64.toInt64

/-! ## Memory references -/

/-- A term of an address and whether it is subtracted. -/
structure Term where
  negative : Bool
  text : List Char
  deriving DecidableEq, Repr

/-- Cuts a sum into the text before the first sign and the terms after it. -/
def cutSigns : List Char → List Char × List Term
  | [] => ([], [])
  | c :: cs =>
    let (text, terms) := cutSigns cs
    if c = '+' ∨ c = '-' then ([], ⟨c == '-', text⟩ :: terms) else (c :: text, terms)

/-- The terms of a sum, trimmed. A sign in front of the first term leaves no empty term. -/
def addressTerms (cs : List Char) : List Term :=
  let (text, terms) := cutSigns cs
  let first := Text.trim text
  let others := terms.map fun t => { t with text := Text.trim t.text }
  if first.isEmpty && !others.isEmpty then others else ⟨false, first⟩ :: others

/-- Adds a term to a base and a displacement. -/
def addTerm (sum : Option Register × UInt64) (t : Term) :
    Except OperandError (Option Register × UInt64) :=
  if t.text.isEmpty then .error .emptyTerm
  else match View.ofName? t.text with
    | some v =>
      if v.width ≠ .qword then .error .narrowRegister
      else if t.negative || sum.1.isSome then .error .extraRegister
      else .ok (some v.register, sum.2)
    | none =>
      match immediate? t.text with
      | some value =>
        .ok (sum.1, if t.negative then sum.2 - value.toUInt64 else sum.2 + value.toUInt64)
      | none => .error .unknownTerm

/-- The text between a pair of brackets. -/
def bracketed? : List Char → Option (List Char)
  | '[' :: cs => if cs.getLast? = some ']' then some cs.dropLast else none
  | _ => none

/-- Reads a memory reference in lower case: an optional size keyword before the first `ptr`, then a
sum of terms in brackets. -/
def reference? (cs : List Char) : Except OperandError Reference := do
  let (width, address) ←
    match Text.cutAt ['p', 't', 'r'] cs with
    | some (size, address) =>
      match Width.ofKeyword? (String.ofList (Text.trim size)) with
      | some w => pure (some w, address)
      | none => throw .unknownSize
    | none => pure (none, cs)
  match bracketed? (Text.trim address) with
  | some sum =>
    let (base, displacement) ← (addressTerms sum).foldlM addTerm (none, 0)
    pure { width, base, displacement := displacement.toInt64 }
  | none => throw .notBracketed

/-! ## Operands -/

/-- What can go wrong in reading one operand: its text is no operand, or the label is not defined
anywhere. -/
inductive OperandFailure where
  | invalid (error : OperandError)
  | undefined
  deriving DecidableEq, Repr

/-- Reads the label of a branch. A register name is not a label. -/
def branchTarget? (labels : Labels) (cs : List Char) : Except OperandFailure Operand :=
  if !isLabelName cs || (View.ofName? cs).isSome then .error (.invalid .notLabel)
  else
    let name := String.ofList cs
    match labels.get? name with
    | some target => .ok (.label name target)
    | none => .error .undefined

/-- Reads an operand that is a value: a register, a memory reference if it holds a bracket, or an
immediate. -/
def value? (cs : List Char) : Except OperandError Operand :=
  match View.ofName? cs with
  | some v => .ok (.register v)
  | none =>
    let lower := cs.map Char.toLower
    if lower.contains '[' then (reference? lower).map .memory
    else match immediate? cs with
      | some value => .ok (.immediate value)
      | none => .error .notOperand

/-- Reads an operand of an instruction with the given mnemonic. -/
def operand? (labels : Labels) (m : Mnemonic) (cs : List Char) : Except OperandFailure Operand :=
  if m.takesLabel then branchTarget? labels cs else (value? cs).mapError .invalid

end X64.Source
