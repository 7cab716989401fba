import X64.Width

/-!
# Registers and their views

The machine has seventeen registers of 64 bits: the sixteen general ones and `rip`. A program names
a register together with a width, so `eax` is the low half of `rax`. Every view has a name but one:
`rip` has no name at byte width.
-/

namespace X64

/-- A 64-bit register. -/
inductive Register where
  | rax
  | rbx
  | rcx
  | rdx
  | rsi
  | rdi
  | rsp
  | rbp
  | r8
  | r9
  | r10
  | r11
  | r12
  | r13
  | r14
  | r15
  | rip
  deriving DecidableEq, Repr, Inhabited

namespace Register

/-- The registers in the order of the register file. -/
def all : List Register :=
  [.rax, .rbx, .rcx, .rdx, .rsi, .rdi, .rsp, .rbp, .r8, .r9, .r10, .r11, .r12, .r13, .r14, .r15,
    .rip]

/-- The place of a register in the register file. -/
def index : Register → Fin 17
  | .rax => 0
  | .rbx => 1
  | .rcx => 2
  | .rdx => 3
  | .rsi => 4
  | .rdi => 5
  | .rsp => 6
  | .rbp => 7
  | .r8 => 8
  | .r9 => 9
  | .r10 => 10
  | .r11 => 11
  | .r12 => 12
  | .r13 => 13
  | .r14 => 14
  | .r15 => 15
  | .rip => 16

/-- The names of one register at the four widths. -/
structure Names where
  qword : String
  dword : String
  word : String
  byte : Option String

/-- The names of each register. -/
def names : Register → Names
  | .rax => ⟨"rax", "eax", "ax", some "al"⟩
  | .rbx => ⟨"rbx", "ebx", "bx", some "bl"⟩
  | .rcx => ⟨"rcx", "ecx", "cx", some "cl"⟩
  | .rdx => ⟨"rdx", "edx", "dx", some "dl"⟩
  | .rsi => ⟨"rsi", "esi", "si", some "sil"⟩
  | .rdi => ⟨"rdi", "edi", "di", some "dil"⟩
  | .rsp => ⟨"rsp", "esp", "sp", some "spl"⟩
  | .rbp => ⟨"rbp", "ebp", "bp", some "bpl"⟩
  | .r8 => ⟨"r8", "r8d", "r8w", some "r8b"⟩
  | .r9 => ⟨"r9", "r9d", "r9w", some "r9b"⟩
  | .r10 => ⟨"r10", "r10d", "r10w", some "r10b"⟩
  | .r11 => ⟨"r11", "r11d", "r11w", some "r11b"⟩
  | .r12 => ⟨"r12", "r12d", "r12w", some "r12b"⟩
  | .r13 => ⟨"r13", "r13d", "r13w", some "r13b"⟩
  | .r14 => ⟨"r14", "r14d", "r14w", some "r14b"⟩
  | .r15 => ⟨"r15", "r15d", "r15w", some "r15b"⟩
  | .rip => ⟨"rip", "eip", "ip", none⟩

/-- The name of the whole register. -/
def name (r : Register) : String := r.names.qword

/-- The name of a register at a width, if that view has one. -/
def nameAt? (r : Register) : Width → Option String
  | .qword => some r.names.qword
  | .dword => some r.names.dword
  | .word => some r.names.word
  | .byte => r.names.byte

/-- The register whose 64-bit name is given exactly. -/
def ofName? (name : String) : Option Register :=
  all.find? fun r => r.name == name

theorem mem_all (r : Register) : r ∈ all := by
  cases r <;> decide

theorem index_injective {r s : Register} (h : r.index = s.index) : r = s := by
  cases r <;> cases s <;> first | rfl | exact absurd h (by decide)

/-- Every place of the register file belongs to a register. -/
theorem exists_index : ∀ i : Fin 17, ∃ r ∈ all, r.index = i := by
  decide

@[simp] theorem ofName?_name (r : Register) : ofName? r.name = some r := by
  cases r <;> decide

end Register

/-- A register seen at a width: `eax` is `rax` at dword width. -/
structure View where
  register : Register
  width : Width
  deriving DecidableEq, Repr, Inhabited

namespace View

/-- The assembly name of a view. -/
def name? (v : View) : Option String := v.register.nameAt? v.width

/-- The text of a view: its name, or the register and the width where there is no name. -/
def render (v : View) : String :=
  match v.name? with
  | some name => name
  | none => v.register.name ++ ":" ++ v.width.keyword

/-- Every view. -/
def all : List View :=
  Register.all.flatMap fun r => Width.all.map fun w => ⟨r, w⟩

/-- The views that have a name, each under the characters of that name. -/
def named : List (List Char × View) :=
  all.filterMap fun v => v.name?.map fun name => (name.toList, v)

/-- The view with the given name. The case of the letters `A` to `Z` does not matter. -/
def ofName? (name : List Char) : Option View :=
  named.lookup (name.map Char.toLower)

theorem mem_all (v : View) : v ∈ all := by
  simp only [all, List.mem_flatMap, List.mem_map]
  exact ⟨v.register, Register.mem_all _, v.width, Width.mem_all _, rfl⟩

end View

end X64
