import X64.Json
import X64.Program

/-!
# Programs as JSON

Every part of a program has a JSON form. Encoding writes records as objects with all their fields.
Decoding ignores fields that it does not know, and it takes a missing field for null where null is
allowed. It reads any record but the body of a label from an array as well.
-/

namespace X64

/-! ## Registers, widths and mnemonics -/

namespace Width

/-- The keyword of a width. -/
def toJson (w : Width) : Json := .string w.keyword

/-- The width that a JSON value stands for. -/
def ofJson? (j : Json) : Option Width := j.symbol? >>= ofKeyword?

@[simp] theorem ofJson?_toJson (w : Width) : ofJson? w.toJson = some w := by
  cases w <;> decide

end Width

namespace Register

/-- The 64-bit name of a register. -/
def toJson (r : Register) : Json := .string r.name

/-- The register that a JSON value stands for. -/
def ofJson? (j : Json) : Option Register := j.symbol? >>= ofName?

@[simp] theorem ofJson?_toJson (r : Register) : ofJson? r.toJson = some r := by
  cases r <;> decide

end Register

namespace View

/-- An object with the register and the width. -/
def toJson (v : View) : Json :=
  .object [("register", v.register.toJson), ("width", v.width.toJson)]

/-- The view that a JSON value stands for. -/
def ofJson? (j : Json) : Option View := do
  let fields ← j.record? ["register", "width"]
  let register ← fields.required? "register" Register.ofJson?
  let width ← fields.required? "width" Width.ofJson?
  some { register, width }

end View

namespace Mnemonic

/-- The printed name of a mnemonic. -/
def toJson (m : Mnemonic) : Json := .string m.name

/-- The mnemonic that a JSON value stands for. Aliases are not accepted. -/
def ofJson? (j : Json) : Option Mnemonic := j.symbol? >>= ofPrinted?

@[simp] theorem ofJson?_toJson (m : Mnemonic) : ofJson? m.toJson = some m := by
  cases m with
  | jumpIf c => cases c <;> decide
  | _ => decide

end Mnemonic

/-! ## Operands and instructions -/

namespace Reference

/-- An object with the width, the base and the displacement. -/
def toJson (m : Reference) : Json :=
  .object
    [("width", .optional Width.toJson m.width), ("base", .optional Register.toJson m.base),
      ("displacement", .integer m.displacement.toInt)]

/-- The reference that a JSON value stands for. -/
def ofJson? (j : Json) : Option Reference := do
  let fields ← j.record? ["width", "base", "displacement"]
  let width ← fields.optional? "width" Width.ofJson?
  let base ← fields.optional? "base" Register.ofJson?
  let displacement ← fields.required? "displacement" Json.int64?
  some { width, base, displacement }

end Reference

namespace Operand

/-- An operand is an object whose only key says which kind of operand it is. -/
def toJson : Operand → Json
  | .register v => .object [("Register", v.toJson)]
  | .immediate value => .object [("Immediate", .integer value.toInt)]
  | .memory m => .object [("Memory", m.toJson)]
  | .label name target =>
    .object [("Label", .object [("name", .string name), ("target", .natural target)])]

/-- The operand that a JSON value stands for. -/
def ofJson? : Json → Option Operand
  | .object [(kind, body)] =>
    match kind with
    | "Register" => (View.ofJson? body).map .register
    | "Immediate" => body.int64?.map .immediate
    | "Memory" => (Reference.ofJson? body).map .memory
    | "Label" => do
      let fields ← body.object?
      let name ← fields.required? "name" Json.string?
      let target ← fields.required? "target" Json.natural?
      some (.label name target)
    | _ => none
  | _ => none

end Operand

namespace Instruction

/-- An object with the mnemonic, the operands and the line number. -/
def toJson (i : Instruction) : Json :=
  .object
    [("mnemonic", i.mnemonic.toJson), ("operands", .array (i.operands.map Operand.toJson)),
      ("line", .natural i.line)]

/-- The instruction that a JSON value stands for. The number of operands is free. -/
def ofJson? (j : Json) : Option Instruction := do
  let fields ← j.record? ["mnemonic", "operands", "line"]
  let mnemonic ← fields.required? "mnemonic" Mnemonic.ofJson?
  let operands ← fields.required? "operands" (Json.array? Operand.ofJson?)
  let line ← fields.required? "line" Json.natural?
  some { mnemonic, operands, line }

end Instruction

/-! ## Programs -/

namespace Labels

/-- An object with a field for each label, in the order of the names. -/
def toJson (t : Labels) : Json :=
  .object (t.entries.map fun (name, index) => (name, .natural index))

/-- The label table that a JSON value stands for. -/
def ofJson? (j : Json) : Option Labels := do
  let fields ← j.object?
  let entries ← fields.mapM fun (name, index) => index.natural?.map fun n => (name, n)
  some (ofList entries)

end Labels

namespace Directive

/-- An object with the name, the arguments and the line number. -/
def toJson (d : Directive) : Json :=
  .object
    [("name", .string d.name), ("args", .array (d.args.map .string)), ("line", .natural d.line)]

/-- The directive that a JSON value stands for. -/
def ofJson? (j : Json) : Option Directive := do
  let fields ← j.record? ["name", "args", "line"]
  let name ← fields.required? "name" Json.string?
  let args ← fields.required? "args" (Json.array? Json.string?)
  let line ← fields.required? "line" Json.natural?
  some { name, args, line }

end Directive

namespace Program

/-- The JSON form of what is known about the origin of a program. -/
def metadataToJson (p : Program) : Json :=
  .object [("source_file", .optional .string p.sourceFile)]

/-- The source file, if any, that the JSON form of metadata names. -/
def sourceFileOfJson? (metadata : Json) : Option (Option String) := do
  let fields ← metadata.record? ["source_file"]
  fields.optional? "source_file" Json.string?

/-- An object with the instructions, the labels, the directives and the metadata. -/
def toJson (p : Program) : Json :=
  .object
    [("instructions", .array (p.instructions.toList.map Instruction.toJson)),
      ("labels", p.labels.toJson), ("directives", .array (p.directives.map Directive.toJson)),
      ("metadata", p.metadataToJson)]

/-- The program that a JSON value stands for. The metadata may be missing, but not null. -/
def ofJson? (j : Json) : Option Program := do
  let fields ←
    j.record? ["instructions", "labels", "directives"] <|>
      j.record? ["instructions", "labels", "directives", "metadata"]
  let instructions ← fields.required? "instructions" (Json.array? Instruction.ofJson?)
  let labels ← fields.required? "labels" Labels.ofJson?
  let directives ← fields.required? "directives" (Json.array? Directive.ofJson?)
  let sourceFile ←
    match fields.lookup "metadata" with
    | none => some none
    | some metadata => sourceFileOfJson? metadata
  some { instructions := instructions.toArray, labels, directives, sourceFile }

end Program

end X64
