import X64.Fibonacci
import X64.Proofs.Launch.StartRoutine

/-!
# The sample program

The compiled C program that the sequence of `X64.Fibonacci` is compared with. Its `main` calls
`fibonacci` with a number that is part of the text, and `ofSource_sample` says what is read for
every such number. All lines but one are fixed, so they are read by evaluation.
-/

namespace X64.Fibonacci

/-! ## The text -/

/-- The lines in front of the one that loads the argument. -/
def linesBefore : List String :=
  [";; EXPECT_STATUS: 13",
    "\t.text",
    "\t.intel_syntax noprefix",
    "\t.file\t\"fib.c\"",
    "\t.globl\tfibonacci                       # -- Begin function fibonacci",
    "\t.p2align\t4, 0x90",
    "\t.type\tfibonacci,@function",
    "fibonacci:                              # @fibonacci",
    "\t.cfi_startproc",
    "# %bb.0:",
    "\tpush\trbp",
    "\t.cfi_def_cfa_offset 16",
    "\t.cfi_offset rbp, -16",
    "\tmov\trbp, rsp",
    "\t.cfi_def_cfa_register rbp",
    "\tmov\tdword ptr [rbp - 4], edi",
    "\tmov\tdword ptr [rbp - 12], 0",
    "\tmov\tdword ptr [rbp - 16], 1",
    "\tmov\tdword ptr [rbp - 20], 1",
    ".LBB0_1:                                # =>This Inner Loop Header: Depth=1",
    "\tmov\teax, dword ptr [rbp - 20]",
    "\tcmp\teax, dword ptr [rbp - 4]",
    "\tjge\t.LBB0_4",
    "# %bb.2:                                #   in Loop: Header=BB0_1 Depth=1",
    "\tmov\teax, dword ptr [rbp - 12]",
    "\tmov\tdword ptr [rbp - 8], eax",
    "\tmov\teax, dword ptr [rbp - 16]",
    "\tmov\tdword ptr [rbp - 12], eax",
    "\tmov\teax, dword ptr [rbp - 8]",
    "\tadd\teax, dword ptr [rbp - 12]",
    "\tmov\tdword ptr [rbp - 16], eax",
    "# %bb.3:                                #   in Loop: Header=BB0_1 Depth=1",
    "\tmov\teax, dword ptr [rbp - 20]",
    "\tadd\teax, 1",
    "\tmov\tdword ptr [rbp - 20], eax",
    "\tjmp\t.LBB0_1",
    ".LBB0_4:",
    "\tmov\teax, dword ptr [rbp - 16]",
    "\tpop\trbp",
    "\t.cfi_def_cfa rsp, 8",
    "\tret",
    ".Lfunc_end0:",
    "\t.size\tfibonacci, .Lfunc_end0-fibonacci",
    "\t.cfi_endproc",
    "                                        # -- End function",
    "\t.globl\tmain                            # -- Begin function main",
    "\t.p2align\t4, 0x90",
    "\t.type\tmain,@function",
    "main:                                   # @main",
    "\t.cfi_startproc",
    "# %bb.0:",
    "\tpush\trbp",
    "\t.cfi_def_cfa_offset 16",
    "\t.cfi_offset rbp, -16",
    "\tmov\trbp, rsp",
    "\t.cfi_def_cfa_register rbp",
    "\tsub\trsp, 16",
    "\tmov\tdword ptr [rbp - 4], 0"]

/-- The lines behind it. -/
def linesAfter : List String :=
  ["\tcall\tfibonacci",
    "\tadd\trsp, 16",
    "\tpop\trbp",
    "\t.cfi_def_cfa rsp, 8",
    "\tret",
    ".Lfunc_end1:",
    "\t.size\tmain, .Lfunc_end1-main",
    "\t.cfi_endproc",
    "                                        # -- End function",
    "\t.ident\t\"clang version 14.0.0\"",
    "\t.section\t\".note.GNU-stack\",\"@progbits\",@progbits",
    "\t.addrsig"]

/-- The line that loads the argument. -/
def argumentLine (n : Int32) : String := "\tmov\tedi, " ++ Text.integer n.toInt

/-- The text of the sample program for an argument. -/
def sample (n : Int32) : String :=
  String.join ((linesBefore ++ argumentLine n :: linesAfter).map (· ++ "\n"))

/-! ## The program -/

/-- A local variable of 32 bits, at an offset from `rbp`. -/
def localAt (offset : Int64) : Operand := .memory ⟨some .dword, some .rbp, offset⟩

/-- The instructions in front of the one that loads the argument: all of `fibonacci`, and the first
four of `main`. -/
def codeBefore : List Instruction :=
  [⟨.push, [.register ⟨.rbp, .qword⟩], 11⟩,
    ⟨.mov, [.register ⟨.rbp, .qword⟩, .register ⟨.rsp, .qword⟩], 14⟩,
    ⟨.mov, [localAt (-4), .register ⟨.rdi, .dword⟩], 16⟩,
    ⟨.mov, [localAt (-12), .immediate 0], 17⟩,
    ⟨.mov, [localAt (-16), .immediate 1], 18⟩,
    ⟨.mov, [localAt (-20), .immediate 1], 19⟩,
    ⟨.mov, [.register ⟨.rax, .dword⟩, localAt (-20)], 21⟩,
    ⟨.cmp, [.register ⟨.rax, .dword⟩, localAt (-4)], 22⟩,
    ⟨.jumpIf .greaterOrEqual, [.label ".LBB0_4" 20], 23⟩,
    ⟨.mov, [.register ⟨.rax, .dword⟩, localAt (-12)], 25⟩,
    ⟨.mov, [localAt (-8), .register ⟨.rax, .dword⟩], 26⟩,
    ⟨.mov, [.register ⟨.rax, .dword⟩, localAt (-16)], 27⟩,
    ⟨.mov, [localAt (-12), .register ⟨.rax, .dword⟩], 28⟩,
    ⟨.mov, [.register ⟨.rax, .dword⟩, localAt (-8)], 29⟩,
    ⟨.add, [.register ⟨.rax, .dword⟩, localAt (-12)], 30⟩,
    ⟨.mov, [localAt (-16), .register ⟨.rax, .dword⟩], 31⟩,
    ⟨.mov, [.register ⟨.rax, .dword⟩, localAt (-20)], 33⟩,
    ⟨.add, [.register ⟨.rax, .dword⟩, .immediate 1], 34⟩,
    ⟨.mov, [localAt (-20), .register ⟨.rax, .dword⟩], 35⟩,
    ⟨.jmp, [.label ".LBB0_1" 6], 36⟩,
    ⟨.mov, [.register ⟨.rax, .dword⟩, localAt (-16)], 38⟩,
    ⟨.pop, [.register ⟨.rbp, .qword⟩], 39⟩,
    ⟨.ret, [], 41⟩,
    ⟨.push, [.register ⟨.rbp, .qword⟩], 52⟩,
    ⟨.mov, [.register ⟨.rbp, .qword⟩, .register ⟨.rsp, .qword⟩], 55⟩,
    ⟨.sub, [.register ⟨.rsp, .qword⟩, .immediate 16], 57⟩,
    ⟨.mov, [localAt (-4), .immediate 0], 58⟩]

/-- The instruction that loads the argument. -/
def loadArgument (n : Int32) : Instruction :=
  ⟨.mov, [.register ⟨.rdi, .dword⟩, .immediate n.toInt64], 59⟩

/-- The instructions behind it: the rest of `main`. -/
def codeAfter : List Instruction :=
  [⟨.call, [.label "fibonacci" 0], 60⟩,
    ⟨.add, [.register ⟨.rsp, .qword⟩, .immediate 16], 61⟩,
    ⟨.pop, [.register ⟨.rbp, .qword⟩], 62⟩,
    ⟨.ret, [], 64⟩]

/-- The labels of the sample program. -/
def sampleLabels : Labels :=
  .ofList [(".LBB0_1", 6), (".LBB0_4", 20), (".Lfunc_end0", 23), (".Lfunc_end1", 32),
    ("fibonacci", 0), ("main", 23)]

/-- The sample program for an argument. Its directives do not matter. -/
def sampleProgram (n : Int32) (directives : List Directive) : Program where
  instructions := (codeBefore ++ loadArgument n :: codeAfter).toArray
  labels := sampleLabels
  directives

/-! ## Reading the text -/

theorem fits_loadArgument (labels : Labels) (n : Int32) : (loadArgument n).Fits labels :=
  ⟨rfl, by simp [loadArgument, Operand.Fits, Mnemonic.takesLabel, View.name?, Register.nameAt?]⟩

theorem ofText_argumentLine (number : Nat) (n : Int32) :
    Source.Line.ofText number (argumentLine n).toList =
      ⟨number, [],
        some (.instruction (loadArgument n).mnemonic.name.toList (loadArgument n).texts)⟩ := by
  have hline := Instruction.ofText_spaced (fits_loadArgument .empty n)
    (show Text.Blanks ['\t'] by decide) (show Text.Blanks ['\t'] by decide) (Or.inr (by simp))
    number
  have htext : (argumentLine n).toList = ['\t'] ++ ((loadArgument n).mnemonic.name.toList ++
      (['\t'] ++ [',', ' '].intercalate (loadArgument n).texts)) := by
    simp [argumentLine, loadArgument, Instruction.texts, Mnemonic.name, Operand.render, View.render,
      View.name?, Register.nameAt?, Register.names, List.intercalate]
  rw [htext, hline]

theorem newline_not_mem_argumentLine (n : Int32) : '\n' ∉ (argumentLine n).toList := by
  have hnumber : '\n' ∉ (Text.integer n.toInt).toList := by
    intro hmem
    exact absurd ((Source.forall_mem_integer n.toInt).2 _ hmem).1 (by decide)
  simp [argumentLine, hnumber]

/-- Fixed lines are read from their characters. Unification takes a string literal apart much faster
than evaluation does. -/
theorem adds_of_characters {labels s t : Labels} {index n : Nat} {is : List Instruction}
    {lines : List String} {texts : List (List Char)}
    (h : List.Forall₂ (fun line text => line = String.ofList text) lines texts)
    (hnewline : ∀ text ∈ texts, '\n' ∉ text)
    (hlabels : Source.collectLabels index (Source.Line.ofTexts n texts) s = .ok t)
    (his : Source.instructions? labels (Source.Line.ofTexts n texts) = .ok is) :
    (∀ text ∈ lines.map String.toList, '\n' ∉ text) ∧
      ∃ directives, Source.Adds labels index s t is directives
        (Source.Line.ofTexts n (lines.map String.toList)) := by
  have htexts : lines.map String.toList = texts := by
    clear hnewline hlabels his
    induction h with
    | nil => rfl
    | cons hline _ ih => rw [List.map_cons, ih, hline, String.toList_ofList]
  rw [htexts]
  exact ⟨hnewline, _, hlabels, his, rfl⟩

/-- The labels of the lines in front of the argument. -/
def labelsBefore : Labels :=
  .ofList [(".LBB0_1", 6), (".LBB0_4", 20), (".Lfunc_end0", 23), ("fibonacci", 0), ("main", 23)]

theorem adds_linesBefore :
    (∀ text ∈ linesBefore.map String.toList, '\n' ∉ text) ∧
      ∃ directives, Source.Adds sampleLabels 0 .empty labelsBefore codeBefore directives
        (Source.Line.ofTexts 0 (linesBefore.map String.toList)) := by
  apply adds_of_characters
  · simp only [linesBefore]
    repeat' first | apply List.Forall₂.nil | apply List.Forall₂.cons | rfl
  · decide +kernel
  · decide +kernel
  · decide +kernel

theorem adds_linesAfter :
    (∀ text ∈ linesAfter.map String.toList, '\n' ∉ text) ∧
      ∃ directives, Source.Adds sampleLabels 28 labelsBefore sampleLabels codeAfter directives
        (Source.Line.ofTexts 59 (linesAfter.map String.toList)) := by
  apply adds_of_characters
  · simp only [linesAfter]
    repeat' first | apply List.Forall₂.nil | apply List.Forall₂.cons | rfl
  · decide +kernel
  · decide +kernel
  · decide +kernel

theorem lines_sample (n : Int32) :
    Text.lines (sample n).toList =
      linesBefore.map String.toList ++
        (argumentLine n).toList :: linesAfter.map String.toList := by
  have htext : (sample n).toList =
      (linesBefore.map String.toList ++ (argumentLine n).toList ::
        linesAfter.map String.toList).flatMap fun line => line ++ ['\n'] := by
    simp [sample, String.toList_join, List.flatMap_map]
  rw [htext]
  apply Text.lines_flatMap
  intro text htext
  rcases List.mem_append.1 htext with htext | htext
  · exact adds_linesBefore.1 text htext
  · rcases List.mem_cons.1 htext with rfl | htext
    · exact newline_not_mem_argumentLine n
    · exact adds_linesAfter.1 text htext

theorem ofSource_sample (n : Int32) :
    ∃ directives, Program.ofSource (sample n) = .ok (sampleProgram n directives) := by
  obtain ⟨-, before, hbefore⟩ := adds_linesBefore
  obtain ⟨-, after, hafter⟩ := adds_linesAfter
  have hargument := Source.adds_of_ofText (fits_loadArgument sampleLabels n)
    (ofText_argumentLine 59 n) 27 labelsBefore
  refine ⟨before ++ ([] ++ after), ?_⟩
  rw [Program.ofSource, Source.Line.ofSource_eq_ofTexts, lines_sample, Source.Line.ofTexts_append,
    Source.Line.ofTexts_cons, Source.assemble_iff_adds]
  exact ⟨hbefore.append (hargument.append hafter), rfl⟩

end X64.Fibonacci
