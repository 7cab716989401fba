import X64.Proofs.Source.Assembly

/-!
# Operand lists

The operands of an instruction are separated by commas, and none of them is empty
(`IsOperandList`). Reading leaves out empty items before it counts the operands, so it counts right
for every such list, but for others as well: by `isOperandList_iff` those have a wrong number of
commas. `Program.operand_lists` is what follows for the lines of a source.

`Line.operandText` is the text that stands behind the mnemonic of a line (`Line.trim_eq`).
-/

namespace X64

namespace Text

/-- The texts between the commas of a list, trimmed. -/
def fields (cs : List Char) : List (List Char) := (cs.splitOn ',').map trim

theorem length_splitOn (c : Char) (cs : List Char) :
    (cs.splitOn c).length = cs.count c + 1 := by
  induction cs with
  | nil => rfl
  | cons d cs ih =>
    rw [List.splitOn_cons_eq_if_modifyHead, List.count_cons]
    split
    · rw [List.length_cons, ih]
    · rw [List.length_modifyHead, ih]

theorem length_fields (cs : List Char) : (fields cs).length = cs.count ',' + 1 := by
  rw [fields, List.length_map, length_splitOn]

theorem length_items_eq_iff {cs : List Char} :
    (items cs).length = (fields cs).length ↔ [] ∉ fields cs := by
  rw [items, ← fields, List.length_filter_eq_length_iff]
  constructor
  · intro hall hmem
    exact absurd (hall [] hmem) (by decide)
  · intro hnot field hfield
    have hne : field ≠ [] := fun heq => hnot (heq ▸ hfield)
    simpa using hne

end Text

namespace Source

/-- The operand lists of the language: blank if there are no operands, and otherwise that many
texts, none of them blank, with commas in between. -/
def IsOperandList (arity : Nat) (cs : List Char) : Prop :=
  if arity = 0 then Text.trim cs = []
  else (Text.fields cs).length = arity ∧ [] ∉ Text.fields cs

instance (arity : Nat) (cs : List Char) : Decidable (IsOperandList arity cs) :=
  inferInstanceAs (Decidable (ite _ _ _))

/-- An operand list has the right number of operands and the right number of commas. -/
theorem isOperandList_iff {arity : Nat} {cs : List Char} :
    IsOperandList arity cs ↔ (Text.items cs).length = arity ∧ cs.count ',' = arity - 1 := by
  have hfields := Text.length_fields cs
  unfold IsOperandList
  split
  · next harity =>
    subst harity
    constructor
    · intro htrim
      have hcomma := Text.comma_not_mem_of_trim htrim
      rw [Text.items_of_not_mem hcomma, if_pos htrim]
      exact ⟨rfl, List.count_eq_zero.2 hcomma⟩
    · rintro ⟨hitems, hcount⟩
      rw [Text.items_of_not_mem (List.count_eq_zero.1 hcount)] at hitems
      split at hitems
      · next htrim => exact htrim
      · cases hitems
  · next harity =>
    rw [← Text.length_items_eq_iff]
    omega

namespace Line

/-- The words of a line behind its labels. -/
def body (cs : List Char) : List Text.Word :=
  (Text.words (Text.trim (stripComment cs))).dropWhile fun w => (definedLabel? w).isSome

/-- The text of a line behind its labels and its mnemonic. -/
def operandText (cs : List Char) : List Char := Text.spell (body cs).tail

theorem body_of_instruction {number : Nat} {cs name : List Char} {operands : List (List Char)}
    (h : (ofText number cs).statement = some (.instruction name operands)) :
    (∃ gap, body cs = ⟨name, gap⟩ :: (body cs).tail) ∧ operands = Text.items (operandText cs) := by
  change Statement.ofWords? (body cs) = _ at h
  unfold operandText
  generalize body cs = ws at h ⊢
  unfold Statement.ofWords? at h
  split at h
  · cases h
  · next w ws =>
    obtain ⟨text, gap⟩ := w
    split at h
    · cases h
    · cases h
      exact ⟨⟨gap, rfl⟩, rfl⟩

/-- A line without its comment: labels, the mnemonic, blanks, and the text of the operands. -/
theorem trim_eq {number : Nat} {cs name : List Char} {operands : List (List Char)}
    (h : (ofText number cs).statement = some (.instruction name operands)) :
    ∃ labels gap, Text.trim (stripComment cs) =
        Text.spell labels ++ (name ++ (gap ++ operandText cs)) ∧
      (∀ w ∈ labels, (definedLabel? w).isSome = true) ∧ Text.Blanks gap := by
  obtain ⟨⟨gap, hbody⟩, -⟩ := body_of_instruction h
  refine ⟨(Text.words (Text.trim (stripComment cs))).takeWhile fun w => (definedLabel? w).isSome,
    gap, ?_, ?_, ?_⟩
  · have hspell := Text.spell_words (Text.trim (stripComment cs))
    rw [← List.takeWhile_append_dropWhile (p := fun w => (definedLabel? w).isSome)
      (l := Text.words _), ← body, hbody] at hspell
    refine hspell.symm.trans ?_
    simp [Text.spell, operandText]
  · exact fun w hw => List.all_eq_true.1 List.all_takeWhile w hw
  · have hmem : (⟨name, gap⟩ : Text.Word) ∈ body cs := hbody ▸ List.mem_cons_self
    exact (Text.blanks_of_mem_words _ ((List.dropWhile_sublist _).subset hmem)).2

end Line

end Source

namespace Program

open Source

/-- What the operand lists of a source are. The items of an instruction that is read are counted and
read in order, without the empty ones, so its list is an operand list if it has no commas too many.
An instruction with another number of items is not read, and it is to blame if the lines before it
are read. -/
theorem operand_lists (source : String) :
    (∀ p, ofSource source = .ok p → ∀ k text name operands,
      (Text.lines source.toList)[k]? = some text →
      (Line.ofText (k + 1) text).statement = some (.instruction name operands) →
        ∃ i ∈ p.instructions, i.line = k + 1 ∧ Mnemonic.ofName? name = some i.mnemonic ∧
          (Text.items (Line.operandText text)).length = i.mnemonic.arity ∧
          List.Forall₂ (fun item o => operand? p.labels i.mnemonic item = .ok o)
            (Text.items (Line.operandText text)) i.operands ∧
          (IsOperandList i.mnemonic.arity (Line.operandText text) ↔
            (Line.operandText text).count ',' = i.mnemonic.arity - 1)) ∧
      ∀ before text after name operands m,
        Text.lines source.toList = before ++ text :: after →
        (Line.ofText (before.length + 1) text).statement = some (.instruction name operands) →
        Mnemonic.ofName? name = some m → (Text.items (Line.operandText text)).length ≠ m.arity →
          (∀ p, ofSource source ≠ .ok p) ∧
            ∀ labels is, collectLabels 0 (Line.ofSource source.toList) .empty = .ok labels →
              instructions? labels (Line.ofTexts 0 before) = .ok is →
                ofSource source = .error (.arity (before.length + 1) m
                  (Text.items (Line.operandText text)).length) := by
  constructor
  · intro p hp k text name operands htext hstatement
    obtain ⟨labels, is, -, his, rfl⟩ := assemble_eq_ok_iff.1 hp
    have hmem : Line.ofText (k + 1) text ∈ Line.ofSource source.toList := by
      refine List.mem_of_getElem? (i := k) ?_
      rw [Line.ofSource, List.getElem?_mapIdx, htext]
      rfl
    obtain ⟨i, hi, hread⟩ := exists_instruction?_of_mem his hmem hstatement
    obtain ⟨-, rfl⟩ := Line.body_of_instruction hstatement
    obtain ⟨hm, hlength, hoperands, hline⟩ := instruction?_eq_ok_iff.1 hread
    refine ⟨i, by simpa using hi, hline, hm, hlength, hoperands, ?_⟩
    rw [isOperandList_iff, and_iff_right hlength]
  · intro before text after name operands m hlines hstatement hm hlength
    obtain ⟨-, rfl⟩ := Line.body_of_instruction hstatement
    have hsource : Line.ofSource source.toList = Line.ofTexts 0 before ++
        Line.ofText (before.length + 1) text :: Line.ofTexts (before.length + 1) after := by
      rw [Line.ofSource_eq_ofTexts, hlines, Line.ofTexts_append, Line.ofTexts_cons, Nat.zero_add]
    have hread : ∀ labels, instruction? labels (before.length + 1) name
        (Text.items (Line.operandText text)) =
          .error (.arity (before.length + 1) m (Text.items (Line.operandText text)).length) := by
      intro labels
      rw [instruction?, hm]
      exact if_pos hlength
    constructor
    · intro p hp
      obtain ⟨labels, is, -, his, -⟩ := assemble_eq_ok_iff.1 hp
      have hmem : Line.ofText (before.length + 1) text ∈ Line.ofSource source.toList := by
        rw [hsource]
        simp
      obtain ⟨i, -, hi⟩ := exists_instruction?_of_mem his hmem hstatement
      exact absurd ((hread labels).symm.trans hi) (by simp)
    · intro labels is hlabels his
      rw [hsource] at hlabels
      rw [ofSource, hsource]
      exact assemble_eq_error hstatement hlabels his (hread labels)

/-- A source with an operand list, and with a text of commas in place of one. -/
def commas : String := "main: mov eax, 1 # one, two\n\tret ,,"

/-- The program of `commas`. -/
def commasProgram : Program where
  instructions := #[⟨.mov, [.register ⟨.rax, .dword⟩, .immediate 1], 1⟩, ⟨.ret, [], 2⟩]
  labels := .ofList [("main", 0)]

theorem operand_lists_of_commas :
    (∃ i ∈ commasProgram.instructions, i.line = 1 ∧
        IsOperandList i.mnemonic.arity (Line.operandText "main: mov eax, 1 # one, two".toList)) ∧
      (∃ i ∈ commasProgram.instructions, i.line = 2 ∧
        ¬IsOperandList i.mnemonic.arity (Line.operandText "\tret ,,".toList)) ∧
      ofSource "nop\nmov eax, 1, 2" = .error (.arity 2 .mov 3) := by
  have hp : ofSource commas = .ok commasProgram := by decide +kernel
  refine ⟨?_, ?_, ?_⟩
  · obtain ⟨i, hi, hline, hm, -, -, hiff⟩ := (operand_lists commas).1 _ hp 0
      "main: mov eax, 1 # one, two".toList "mov".toList ["eax".toList, "1".toList]
      (by decide +kernel) (by decide +kernel)
    have hmov : i.mnemonic = .mov := Option.some.inj (hm.symm.trans (by decide +kernel))
    refine ⟨i, hi, hline, hiff.2 ?_⟩
    rw [hmov]
    decide +kernel
  · obtain ⟨i, hi, hline, hm, -, -, hiff⟩ := (operand_lists commas).1 _ hp 1
      "\tret ,,".toList "ret".toList [] (by decide +kernel) (by decide +kernel)
    have hret : i.mnemonic = .ret := Option.some.inj (hm.symm.trans (by decide +kernel))
    refine ⟨i, hi, hline, fun hlist => ?_⟩
    have hcount := hiff.1 hlist
    rw [hret] at hcount
    exact absurd hcount (by decide +kernel)
  · obtain ⟨-, hblame⟩ := (operand_lists "nop\nmov eax, 1, 2").2 ["nop".toList]
      "mov eax, 1, 2".toList [] "mov".toList ["eax".toList, "1".toList, "2".toList] .mov
      (by decide +kernel) (by decide +kernel) (by decide +kernel) (by decide +kernel)
    exact hblame .empty [⟨.nop, [], 1⟩] (by decide +kernel) (by decide +kernel)

/-- A line whose middle operand is missing is read as if it had two operands. -/
theorem missing_operand_is_read :
    ofSource "mov eax,,1" =
        .ok { instructions := #[⟨.mov, [.register ⟨.rax, .dword⟩, .immediate 1], 1⟩] } ∧
      (Line.ofText 1 "mov eax,,1".toList).statement =
        some (.instruction "mov".toList ["eax".toList, "1".toList]) ∧
      ¬IsOperandList (Mnemonic.arity .mov) (Line.operandText "mov eax,,1".toList) := by
  refine ⟨?_, ?_, ?_⟩ <;> decide +kernel

end Program

end X64
