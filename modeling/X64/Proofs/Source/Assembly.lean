import X64.Proofs.Except
import X64.Proofs.Labels
import X64.Proofs.Source.Operand
import X64.Source.Program

/-!
# Assembling lines

What the two passes over the lines of a source do, one spec for each.

* Labels. `defineLabels_eq_ok_iff` is about one line: its names must be new and differ from one
  another, and then they all get the index. `collectLabels_append` cuts a list of lines, and
  `collectLabels_spec` says which labels a table has in the end.
* Instructions. `fits_of_operand?` says that what is read as an operand fits its mnemonic. A list of
  lines is read in pieces (`instructions?_append`), and it can be moved (`instructions?_map`).
  Behind other lines and instructions it is read as before, up to line numbers and targets
  (`instructions?_relocate`), and under a larger table it is read alike (`instructions?_mono`).
* Programs. `Adds` is what a stretch of lines adds to a program. `Program.WellFormed` collects what
  holds of every program that is read from a source, and `wellFormed_of_ofSource` proves it.
-/

namespace X64

namespace Source

/-! ## The labels of a line -/

/-- The names of the labels that a line defines. -/
def Line.names (line : Line) : List String := line.labels.map String.ofList

/-- The labels of a line are new, they differ from one another, and they all get the index. -/
theorem defineLabels_eq_ok_iff {index : Nat} {line : Line} {s t : Labels} :
    defineLabels index line s = .ok t ↔ s.Extends line.names index t := by
  unfold defineLabels Line.names
  induction line.labels generalizing s with
  | nil =>
    rw [List.map_nil, Labels.extends_nil]
    exact ⟨Except.ok.inj, congrArg Except.ok⟩
  | cons name labels ih =>
    rw [List.map_cons, Labels.extends_cons]
    simp only [List.foldlM_cons]
    cases hname : s.get? (String.ofList name) with
    | some i => simp [bind, Except.bind]
    | none =>
      change List.foldlM _ (s.insert _ index) labels = _ ↔ _
      rw [ih, eq_self, true_and]

/-! ## The labels of a list of lines -/

/-- The number of lines that hold an instruction. -/
def countInstructions (lines : List Line) : Nat := lines.countP Line.isInstruction

theorem countInstructions_append (xs ys : List Line) :
    countInstructions (xs ++ ys) = countInstructions xs + countInstructions ys :=
  List.countP_append

theorem collectLabels_cons (index : Nat) (line : Line) (rest : List Line) (s : Labels) :
    collectLabels index (line :: rest) s =
      defineLabels index line s >>= collectLabels (index + countInstructions [line]) rest := by
  rw [collectLabels]
  cases hline : line.isInstruction <;> simp [countInstructions, hline]

/-- The labels of two lists of lines, one after the other. -/
theorem collectLabels_append (index : Nat) (xs ys : List Line) (s : Labels) :
    collectLabels index (xs ++ ys) s =
      collectLabels index xs s >>= collectLabels (index + countInstructions xs) ys := by
  induction xs generalizing index s with
  | nil => rfl
  | cons line xs ih =>
    have hcount : countInstructions (line :: xs) =
        countInstructions [line] + countInstructions xs := countInstructions_append [line] xs
    rw [List.cons_append, collectLabels_cons, collectLabels_cons, hcount]
    cases defineLabels index line s with
    | error e => rfl
    | ok t =>
      change collectLabels _ (xs ++ ys) t = collectLabels _ xs t >>= _
      rw [ih, Nat.add_assoc]

/-- A table that was collected holds what it held before, and every label of a line under the number
of instructions before that line. -/
theorem collectLabels_spec {index : Nat} {lines : List Line} {s t : Labels}
    (h : collectLabels index lines s = .ok t) {name : String} {i : Nat} :
    t.get? name = some i ↔
      s.get? name = some i ∨ ∃ before line after, lines = before ++ line :: after ∧
        name ∈ line.names ∧ i = index + countInstructions before := by
  induction lines generalizing index s with
  | nil =>
    cases h
    simp
  | cons first rest ih =>
    rw [collectLabels_cons, bind_eq_ok_iff] at h
    obtain ⟨u, hu, hrest⟩ := h
    obtain ⟨-, hfresh, hget⟩ := defineLabels_eq_ok_iff.1 hu
    have hcons : ∀ before : List Line, countInstructions (first :: before) =
        countInstructions [first] + countInstructions before :=
      fun before => countInstructions_append [first] before
    rw [ih hrest, hget name]
    constructor
    · intro hparts
      rcases hparts with hname | ⟨before, line, after, rfl, hmem, rfl⟩
      · split at hname
        · next hmem =>
          obtain rfl : index = i := Option.some.inj hname
          exact Or.inr ⟨[], first, rest, rfl, hmem, rfl⟩
        · exact Or.inl hname
      · refine Or.inr ⟨first :: before, line, after, rfl, hmem, ?_⟩
        rw [hcons before]
        omega
    · intro hparts
      rcases hparts with hname | ⟨before, line, after, hlines, hmem, hi⟩
      · have hnot : name ∉ first.names := by
          intro hmem
          rw [hfresh name hmem] at hname
          exact absurd hname (by simp)
        rw [if_neg hnot]
        exact Or.inl hname
      · cases before with
        | nil =>
          obtain ⟨rfl, rfl⟩ := List.cons.inj hlines
          rw [if_pos hmem]
          exact Or.inl (congrArg some hi.symm)
        | cons first' before =>
          obtain ⟨rfl, hrest'⟩ := List.cons.inj hlines
          rw [hcons before] at hi
          exact Or.inr ⟨before, line, after, hrest', hmem, by omega⟩

/-! ## Instructions -/

theorem isSome_name?_of_ofName? {cs : List Char} {v : View} (h : View.ofName? cs = some v) :
    v.name?.isSome = true := by
  obtain ⟨name, hname, -⟩ := View.exists_name?_of_ofName? h
  rw [hname]
  rfl

theorem cases_of_value? {cs : List Char} {o : Operand} (h : value? cs = .ok o) :
    (∃ v, o = .register v ∧ v.name?.isSome = true) ∨ (∃ x, o = .immediate x) ∨
      ∃ r, o = .memory r := by
  unfold value? at h
  split at h
  · next v hv =>
    cases h
    exact Or.inl ⟨v, rfl, isSome_name?_of_ofName? hv⟩
  · simp only at h
    split at h
    · cases hr : reference? (cs.map Char.toLower) with
      | error e =>
        rw [hr] at h
        cases h
      | ok r =>
        rw [hr] at h
        cases h
        exact Or.inr (Or.inr ⟨r, rfl⟩)
    · split at h
      · next x _ =>
        cases h
        exact Or.inr (Or.inl ⟨x, rfl⟩)
      · cases h

/-- What is read as an operand of a mnemonic may stand behind it. -/
theorem fits_of_operand? {labels : Labels} {m : Mnemonic} {cs : List Char} {o : Operand}
    (h : operand? labels m cs = .ok o) : o.Fits labels m := by
  unfold operand? at h
  split at h
  · next hm =>
    unfold branchTarget? at h
    split at h
    · cases h
    · next hname =>
      simp only [Bool.or_eq_true, Bool.not_eq_true', not_or, Bool.not_eq_false,
        Option.isSome_iff_ne_none, ne_eq, not_not] at hname
      simp only at h
      split at h
      · next target htarget =>
        cases h
        refine ⟨hm, ?_, ?_, htarget⟩
        · rw [String.toList_ofList]
          exact hname.1
        · rw [String.toList_ofList]
          exact hname.2
      · cases h
  · next hm =>
    have hm' : m.takesLabel = false := by simpa using hm
    cases hv : value? cs with
    | error e =>
      rw [hv] at h
      cases h
    | ok o' =>
      rw [hv] at h
      cases h
      rcases cases_of_value? hv with ⟨v, rfl, hname⟩ | ⟨x, rfl⟩ | ⟨r, rfl⟩
      · exact ⟨hm', hname⟩
      · exact hm'
      · exact hm'

/-- A register name is not read as the operand of a branch. -/
theorem operand?_of_isSome_ofName? {labels : Labels} {m : Mnemonic} (hm : m.takesLabel = true)
    {cs : List Char} (h : (View.ofName? cs).isSome = true) :
    operand? labels m cs = .error (.invalid .notLabel) := by
  rw [operand?, if_pos hm, branchTarget?, if_pos (by simp [h])]

theorem instruction?_eq_ok_iff {labels : Labels} {number : Nat} {name : List Char}
    {texts : List (List Char)} {i : Instruction} :
    instruction? labels number name texts = .ok i ↔
      Mnemonic.ofName? name = some i.mnemonic ∧ texts.length = i.mnemonic.arity ∧
        List.Forall₂ (fun text o => operand? labels i.mnemonic text = .ok o) texts i.operands ∧
        i.line = number := by
  unfold instruction?
  cases hm : Mnemonic.ofName? name with
  | none => simp
  | some m =>
    by_cases hlength : texts.length = m.arity
    · simp only [hlength, ne_eq, not_true_eq_false, if_false]
      rw [bind_eq_ok_iff]
      constructor
      · intro hparts
        rcases hparts with ⟨operands, hoperands, heq⟩
        cases heq
        refine ⟨rfl, rfl, ?_, rfl⟩
        rw [mapM_eq_ok_iff] at hoperands
        exact hoperands.imp fun _ _ h => mapError_eq_ok_iff.1 h
      · intro hparts
        rcases hparts with ⟨hmnemonic, -, hoperands, rfl⟩
        obtain rfl : m = i.mnemonic := Option.some.inj hmnemonic
        refine ⟨i.operands, ?_, rfl⟩
        rw [mapM_eq_ok_iff]
        exact hoperands.imp fun _ _ h => mapError_eq_ok_iff.2 h
    · simp only [ne_eq, hlength, not_false_eq_true, if_true]
      constructor
      · intro h
        cases h
      · intro hparts
        rcases hparts with ⟨hmnemonic, hlength', -⟩
        obtain rfl : m = i.mnemonic := Option.some.inj hmnemonic
        exact absurd hlength' hlength

end Source

/-- Whether an instruction has as many operands as its mnemonic takes, and whether they all fit. -/
def Instruction.Fits (labels : Labels) (i : Instruction) : Prop :=
  i.operands.length = i.mnemonic.arity ∧ ∀ o ∈ i.operands, o.Fits labels i.mnemonic

instance (labels : Labels) (i : Instruction) : Decidable (i.Fits labels) :=
  inferInstanceAs (Decidable (_ ∧ _))

namespace Source

theorem fits_of_instruction? {labels : Labels} {number : Nat} {name : List Char}
    {texts : List (List Char)} {i : Instruction}
    (h : instruction? labels number name texts = .ok i) : i.Fits labels := by
  obtain ⟨-, hlength, hoperands, -⟩ := instruction?_eq_ok_iff.1 h
  refine ⟨hoperands.length_eq ▸ hlength, ?_⟩
  exact forall_mem_of_forall₂ (hoperands.imp fun _ _ ho => fits_of_operand? ho)

/-! ## Relocation -/

end Source

/-- The operand behind `count` more instructions. The target of a branch moves with them. -/
def Operand.relocate (count : Nat) : Operand → Operand
  | .label name target => .label name (target + count)
  | o => o

/-- The instruction behind more lines and more instructions. -/
def Instruction.relocate (lines count : Nat) (i : Instruction) : Instruction where
  mnemonic := i.mnemonic
  operands := i.operands.map (Operand.relocate count)
  line := i.line + lines

theorem Operand.relocate_zero (o : Operand) : o.relocate 0 = o := by
  cases o <;> rfl

theorem Instruction.relocate_zero (i : Instruction) : i.relocate 0 0 = i := by
  rw [relocate, List.map_congr_left fun o _ => o.relocate_zero, List.map_id']
  rfl

namespace Source

/-- The line behind more lines. -/
def Line.relocate (lines : Nat) (line : Line) : Line := { line with number := line.number + lines }

/-- If the labels are found behind `count` more instructions, so are the operands that name them. -/
theorem operand?_relocate {s t : Labels} {count : Nat} (hst : s.ShiftsTo t count) {m : Mnemonic}
    {cs : List Char} {o : Operand} (h : operand? s m cs = .ok o) :
    operand? t m cs = .ok (o.relocate count) := by
  unfold operand? at h ⊢
  split
  · next hm =>
    rw [if_pos hm] at h
    unfold branchTarget? at h ⊢
    split
    · next hname =>
      rw [if_pos hname] at h
      cases h
    · next hname =>
      rw [if_neg hname] at h
      simp only at h ⊢
      cases hs : s.get? (String.ofList cs) with
      | none =>
        rw [hs] at h
        cases h
      | some target =>
        rw [hs] at h
        cases h
        rw [hst _ _ hs]
        rfl
  · next hm =>
    rw [if_neg hm] at h
    have hvalue : o.relocate count = o := by
      rcases cases_of_value? (mapError_eq_ok_iff.1 h) with ⟨v, rfl, -⟩ | ⟨x, rfl⟩ | ⟨r, rfl⟩
      · rfl
      · rfl
      · rfl
    rw [hvalue]
    exact h

theorem instruction?_relocate {s t : Labels} {count : Nat} (hst : s.ShiftsTo t count)
    (lines : Nat) {number : Nat} {name : List Char} {texts : List (List Char)} {i : Instruction}
    (h : instruction? s number name texts = .ok i) :
    instruction? t (number + lines) name texts = .ok (i.relocate lines count) := by
  rw [instruction?_eq_ok_iff] at h ⊢
  obtain ⟨hm, hlength, hoperands, rfl⟩ := h
  refine ⟨hm, hlength, ?_, rfl⟩
  exact List.forall₂_map_right_iff.2 (hoperands.imp fun _ _ ho => operand?_relocate hst ho)

/-! ## The instructions of a list of lines -/

theorem instructions?_cons_instruction {labels : Labels} {line : Line} {name : List Char}
    {texts : List (List Char)} (h : line.statement = some (.instruction name texts))
    (rest : List Line) :
    instructions? labels (line :: rest) = (do
      let first ← instruction? labels line.number name texts
      let others ← instructions? labels rest
      pure (first :: others)) := by
  rw [instructions?, h]

/-- The instructions of a list whose first line holds one. -/
theorem instructions?_cons_eq_ok_iff {labels : Labels} {line : Line} {name : List Char}
    {texts : List (List Char)} (h : line.statement = some (.instruction name texts))
    {rest : List Line} {is : List Instruction} :
    instructions? labels (line :: rest) = .ok is ↔
      ∃ first others, instruction? labels line.number name texts = .ok first ∧
        instructions? labels rest = .ok others ∧ is = first :: others := by
  rw [instructions?_cons_instruction h]
  simp only [bind_eq_ok_iff]
  constructor
  · rintro ⟨first, hfirst, others, hothers, heq⟩
    exact ⟨first, others, hfirst, hothers, (Except.ok.inj heq).symm⟩
  · rintro ⟨first, others, hfirst, hothers, rfl⟩
    exact ⟨first, hfirst, others, hothers, rfl⟩

theorem instructions?_cons_other {labels : Labels} {line : Line} (h : line.isInstruction = false)
    (rest : List Line) : instructions? labels (line :: rest) = instructions? labels rest := by
  rw [instructions?]
  split
  · next hline =>
    simp [Line.isInstruction, hline] at h
  · rfl

theorem exists_of_isInstruction {line : Line} (h : line.isInstruction = true) :
    ∃ name texts, line.statement = some (.instruction name texts) := by
  unfold Line.isInstruction at h
  split at h
  · next name texts hline => exact ⟨name, texts, hline⟩
  · exact absurd h (by decide)

/-- The instructions of two lists of lines, one after the other. -/
theorem instructions?_append (labels : Labels) (xs ys : List Line) :
    instructions? labels (xs ++ ys) = (do
      let first ← instructions? labels xs
      let others ← instructions? labels ys
      pure (first ++ others)) := by
  induction xs with
  | nil =>
    rw [List.nil_append]
    cases instructions? labels ys <;> rfl
  | cons line xs ih =>
    rw [List.cons_append]
    cases hline : line.isInstruction with
    | false => rw [instructions?_cons_other hline, instructions?_cons_other hline, ih]
    | true =>
      obtain ⟨name, texts, hstatement⟩ := exists_of_isInstruction hline
      rw [instructions?_cons_instruction hstatement, instructions?_cons_instruction hstatement, ih]
      cases instruction? labels line.number name texts with
      | error e => rfl
      | ok i =>
        cases instructions? labels xs with
        | error e => rfl
        | ok is => cases instructions? labels ys <;> rfl

/-- The instructions of a list of lines, one for each line that holds one. -/
theorem instructions?_spec {labels : Labels} {lines : List Line} {is : List Instruction}
    (h : instructions? labels lines = .ok is) :
    is.length = countInstructions lines ∧ ∀ i ∈ is, i.Fits labels := by
  induction lines generalizing is with
  | nil =>
    cases h
    exact ⟨rfl, by simp⟩
  | cons line rest ih =>
    have hcount : countInstructions (line :: rest) =
        countInstructions [line] + countInstructions rest := countInstructions_append [line] rest
    cases hline : line.isInstruction with
    | false =>
      rw [instructions?_cons_other hline] at h
      obtain ⟨hlength, hfits⟩ := ih h
      have hzero : countInstructions [line] = 0 := by simp [countInstructions, hline]
      exact ⟨by omega, hfits⟩
    | true =>
      obtain ⟨name, texts, hstatement⟩ := exists_of_isInstruction hline
      obtain ⟨first, others, hfirst, hothers, rfl⟩ := (instructions?_cons_eq_ok_iff hstatement).1 h
      obtain ⟨hlength, hfits⟩ := ih hothers
      have hone : countInstructions [line] = 1 := by simp [countInstructions, hline]
      refine ⟨by rw [List.length_cons]; omega, ?_⟩
      intro i hi
      rcases List.mem_cons.1 hi with rfl | hi
      · exact fits_of_instruction? hfirst
      · exact hfits i hi

/-- Lines that are moved, with the instructions on them. What a line says stays, and each
instruction is read again in its new place. -/
theorem instructions?_map {s t : Labels} {move : Line → Line}
    {change : Instruction → Instruction}
    (hstatement : ∀ line : Line, (move line).statement = line.statement)
    (hread : ∀ (line : Line) (name : List Char) (texts : List (List Char)) (i : Instruction),
      instruction? s line.number name texts = .ok i →
        instruction? t (move line).number name texts = .ok (change i))
    {lines : List Line} {is : List Instruction} (h : instructions? s lines = .ok is) :
    instructions? t (lines.map move) = .ok (is.map change) := by
  induction lines generalizing is with
  | nil =>
    cases h
    rfl
  | cons line rest ih =>
    rw [List.map_cons]
    cases hline : line.isInstruction with
    | false =>
      have hline' : (move line).isInstruction = false := by
        rw [Line.isInstruction, hstatement]
        exact hline
      rw [instructions?_cons_other hline] at h
      rw [instructions?_cons_other hline']
      exact ih h
    | true =>
      obtain ⟨name, texts, hline⟩ := exists_of_isInstruction hline
      obtain ⟨first, others, hfirst, hothers, rfl⟩ := (instructions?_cons_eq_ok_iff hline).1 h
      rw [instructions?_cons_eq_ok_iff ((hstatement line).trans hline)]
      exact ⟨_, _, hread line name texts first hfirst, ih hothers, rfl⟩

/-- A list of lines behind more lines and more instructions. -/
theorem instructions?_relocate {s t : Labels} {count : Nat} (hst : s.ShiftsTo t count) (k : Nat)
    {lines : List Line} {is : List Instruction} (h : instructions? s lines = .ok is) :
    instructions? t (lines.map (Line.relocate k)) =
      .ok (is.map (Instruction.relocate k count)) := by
  refine instructions?_map (fun line => ?_) (fun line name texts i hi => ?_) h
  · rfl
  · exact instruction?_relocate hst k hi

/-- A larger table reads a list of lines alike. -/
theorem instructions?_mono {s t : Labels} (hle : s.Le t) {lines : List Line}
    {is : List Instruction} (h : instructions? s lines = .ok is) :
    instructions? t lines = .ok is := by
  have hlines : lines.map (Line.relocate 0) = lines := List.map_id lines
  have his : is.map (Instruction.relocate 0 0) = is := by
    rw [List.map_congr_left fun i _ => i.relocate_zero, List.map_id']
  have hread := instructions?_relocate hle.shiftsTo 0 h
  rwa [hlines, his] at hread

/-- The instruction of every line that holds one is read and kept. -/
theorem exists_instruction?_of_mem {labels : Labels} {lines : List Line} {is : List Instruction}
    (h : instructions? labels lines = .ok is) {line : Line} (hline : line ∈ lines)
    {name : List Char} {texts : List (List Char)}
    (hstatement : line.statement = some (.instruction name texts)) :
    ∃ i ∈ is, instruction? labels line.number name texts = .ok i := by
  obtain ⟨before, after, rfl⟩ := List.append_of_mem hline
  rw [instructions?_append, bind_eq_ok_iff] at h
  obtain ⟨first, -, h⟩ := h
  obtain ⟨others, h, his⟩ := bind_eq_ok_iff.1 h
  obtain ⟨i, rest, hi, -, rfl⟩ := (instructions?_cons_eq_ok_iff hstatement).1 h
  obtain rfl : first ++ i :: rest = is := Except.ok.inj his
  exact ⟨i, by simp, hi⟩

/-! ## Programs -/

theorem assemble_eq_ok_iff {lines : List Line} {p : Program} :
    assemble lines = .ok p ↔ ∃ labels is, collectLabels 0 lines .empty = .ok labels ∧
      instructions? labels lines = .ok is ∧
        p =
          { instructions := is.toArray, labels,
            directives := lines.filterMap Line.directive? } := by
  unfold assemble
  rw [bind_eq_ok_iff]
  constructor
  · intro hparts
    rcases hparts with ⟨labels, hlabels, h⟩
    obtain ⟨is, his, heq⟩ := bind_eq_ok_iff.1 h
    cases heq
    exact ⟨labels, is, hlabels, his, rfl⟩
  · intro hparts
    rcases hparts with ⟨labels, is, hlabels, his, rfl⟩
    exact ⟨labels, hlabels, bind_eq_ok_iff.2 ⟨is, his, rfl⟩⟩

/-- The first instruction that is not read is to blame for the whole. -/
theorem assemble_eq_error {before after : List Line} {line : Line} {name : List Char}
    {texts : List (List Char)} (hstatement : line.statement = some (.instruction name texts))
    {labels : Labels}
    (hlabels : collectLabels 0 (before ++ line :: after) .empty = .ok labels)
    {is : List Instruction} (hbefore : instructions? labels before = .ok is) {e : SourceError}
    (he : instruction? labels line.number name texts = .error e) :
    assemble (before ++ line :: after) = .error e := by
  have hline : instructions? labels (line :: after) = .error e := by
    rw [instructions?_cons_instruction hstatement, he]
    rfl
  have hread : instructions? labels (before ++ line :: after) = .error e := by
    rw [instructions?_append, hbefore, hline]
    rfl
  rw [assemble, hlabels, ok_bind, hread]
  rfl

/-! ## Stretches of lines -/

/-- What a stretch of lines adds to a program. Its labels count from `index` and extend `s` to `t`,
and its branches find their targets in `labels`. -/
structure Adds (labels : Labels) (index : Nat) (s t : Labels) (is : List Instruction)
    (ds : List Directive) (lines : List Line) : Prop where
  labels_eq : collectLabels index lines s = .ok t
  instructions_eq : instructions? labels lines = .ok is
  directives_eq : lines.filterMap Line.directive? = ds

theorem Adds.countInstructions_eq {labels : Labels} {index : Nat} {s t : Labels}
    {is : List Instruction} {ds : List Directive} {lines : List Line}
    (h : Adds labels index s t is ds lines) : countInstructions lines = is.length :=
  (instructions?_spec h.instructions_eq).1.symm

/-- Two stretches, one after the other. -/
theorem Adds.append {labels : Labels} {index : Nat} {s t u : Labels} {is js : List Instruction}
    {ds es : List Directive} {xs ys : List Line} (hx : Adds labels index s t is ds xs)
    (hy : Adds labels (index + is.length) t u js es ys) :
    Adds labels index s u (is ++ js) (ds ++ es) (xs ++ ys) where
  labels_eq := by
    rw [collectLabels_append, hx.labels_eq, hx.countInstructions_eq]
    exact hy.labels_eq
  instructions_eq := by
    rw [instructions?_append, hx.instructions_eq, hy.instructions_eq]
    rfl
  directives_eq := by rw [List.filterMap_append, hx.directives_eq, hy.directives_eq]

theorem Adds.mono {labels larger : Labels} (hle : labels.Le larger) {index : Nat} {s t : Labels}
    {is : List Instruction} {ds : List Directive} {lines : List Line}
    (h : Adds labels index s t is ds lines) : Adds larger index s t is ds lines where
  labels_eq := h.labels_eq
  instructions_eq := instructions?_mono hle h.instructions_eq
  directives_eq := h.directives_eq

theorem Adds.nil (labels : Labels) (index : Nat) (s : Labels) : Adds labels index s s [] [] [] :=
  ⟨rfl, rfl, rfl⟩

/-- A line without labels and without a statement adds nothing. -/
theorem Adds.blank (labels : Labels) (index : Nat) (s : Labels) {lines : List Line}
    (h : lines = [] ∨ ∃ number, lines = [⟨number, [], none⟩]) :
    Adds labels index s s [] [] lines := by
  rcases h with rfl | ⟨number, rfl⟩
  · exact Adds.nil labels index s
  · exact ⟨rfl, rfl, rfl⟩

theorem assemble_iff_adds {lines : List Line} {p : Program} :
    assemble lines = .ok p ↔
      Adds p.labels 0 .empty p.labels p.instructions.toList p.directives lines ∧
        p.sourceFile = none := by
  rw [assemble_eq_ok_iff]
  constructor
  · intro hparts
    rcases hparts with ⟨labels, is, hlabels, his, rfl⟩
    exact ⟨⟨hlabels, his, rfl⟩, rfl⟩
  · intro hparts
    rcases hparts with ⟨h, hfile⟩
    obtain ⟨instructions, labels, directives, sourceFile⟩ := p
    obtain rfl : sourceFile = none := hfile
    exact ⟨labels, instructions.toList, h.labels_eq, h.instructions_eq, by rw [h.directives_eq]⟩

/-- A line without labels and without a statement makes no difference at the end. -/
theorem assemble_append_blank (lines : List Line) {blank : List Line}
    (h : blank = [] ∨ ∃ number, blank = [⟨number, [], none⟩]) :
    assemble (lines ++ blank) = assemble lines := by
  rcases h with rfl | ⟨number, rfl⟩
  · rw [List.append_nil]
  · have hlabels : collectLabels 0 (lines ++ [⟨number, [], none⟩]) .empty =
        collectLabels 0 lines .empty := by
      rw [collectLabels_append]
      cases collectLabels 0 lines .empty <;> rfl
    have hread (labels : Labels) :
        instructions? labels (lines ++ [⟨number, [], none⟩]) = instructions? labels lines := by
      rw [instructions?_append]
      cases instructions? labels lines with
      | error e => rfl
      | ok is => exact congrArg Except.ok (List.append_nil is)
    have hnone : [(⟨number, [], none⟩ : Line)].filterMap Line.directive? = [] := rfl
    simp only [assemble, hlabels, hread, List.filterMap_append, hnone, List.append_nil]

/-! ## Lines of a text -/

namespace Line

/-- The lines with the given texts, numbered from `n + 1`. -/
def ofTexts (n : Nat) (texts : List (List Char)) : List Line :=
  texts.mapIdx fun i text => ofText (n + i + 1) text

theorem ofSource_eq_ofTexts (cs : List Char) : ofSource cs = ofTexts 0 (Text.lines cs) := by
  simp [ofSource, ofTexts]

theorem ofTexts_append (n : Nat) (xs ys : List (List Char)) :
    ofTexts n (xs ++ ys) = ofTexts n xs ++ ofTexts (n + xs.length) ys := by
  simp only [ofTexts, List.mapIdx_append]
  congr 2
  funext i text
  congr 1
  omega

theorem ofTexts_cons (n : Nat) (text : List Char) (texts : List (List Char)) :
    ofTexts n (text :: texts) = ofText (n + 1) text :: ofTexts (n + 1) texts :=
  ofTexts_append n [text] texts

/-- The lines of two texts with a newline in between: those of the first, at most one blank line,
and those of the second. Their numbers grow by the newlines in front of them. -/
theorem ofSource_append (a b : List Char) :
    ∃ blank, (blank = [] ∨ ∃ number, blank = [⟨number, [], none⟩]) ∧
      ofSource (a ++ '\n' :: b) =
        ofSource a ++ (blank ++ ofTexts (a.count '\n' + 1) (Text.lines b)) := by
  have hlength := Text.length_lines_append_newline a
  rw [ofSource_eq_ofTexts, Text.lines_append, ofTexts_append, ofSource_eq_ofTexts, hlength,
    Nat.zero_add]
  rcases Text.lines_append_newline a with h | h
  · exact ⟨[], Or.inl rfl, by rw [h]; rfl⟩
  · rw [h, ofTexts_append, List.append_assoc]
    exact ⟨_, Or.inr ⟨_, rfl⟩, rfl⟩

/-- The lines of a source around one of them. -/
theorem ofSource_middle {before text : List Char}
    (hbefore : before = [] ∨ before.getLast? = some '\n') (htext : '\n' ∉ text)
    (rest : List Char) :
    ofSource (before ++ (text ++ '\n' :: rest)) =
      ofTexts 0 (Text.lines before) ++
        ofText ((Text.lines before).length + 1) text ::
          ofTexts ((Text.lines before).length + 1) (Text.lines rest) := by
  rw [ofSource_eq_ofTexts, Text.lines_middle hbefore htext, ofTexts_append, ofTexts_cons,
    Nat.zero_add]

/-- A newline at the end of a source does not change what it stands for. -/
theorem assemble_newline (cs : List Char) :
    assemble (ofSource (cs ++ ['\n'])) = assemble (ofSource cs) := by
  obtain ⟨blank, hblank, hlines⟩ := ofSource_append cs []
  have hnil : blank ++ ofTexts (cs.count '\n' + 1) (Text.lines []) = blank := List.append_nil blank
  rw [hlines, hnil, assemble_append_blank _ hblank]

/-- The line with another number. -/
def renumber (f : Nat → Nat) (line : Line) : Line := { line with number := f line.number }

theorem map_renumber_ofSource (f : Nat → Nat) (cs : List Char) :
    (ofSource cs).map (renumber f) =
      (Text.lines cs).mapIdx fun i text => ofText (f (i + 1)) text := by
  apply List.ext_getElem?
  intro i
  simp only [ofSource, List.getElem?_map, List.getElem?_mapIdx, Option.map_map]
  rfl

/-- The lines of a text behind more lines. -/
theorem map_relocate_ofSource (k : Nat) (cs : List Char) :
    (ofSource cs).map (relocate k) = ofTexts k (Text.lines cs) := by
  have hnumber : ∀ i, i + 1 + k = k + i + 1 := fun i => by omega
  have hlines := map_renumber_ofSource (· + k) cs
  simp only [hnumber] at hlines
  exact hlines

end Line

end Source

/-- The directive on another line. -/
def Directive.renumber (f : Nat → Nat) (d : Directive) : Directive := { d with line := f d.line }

namespace Source

theorem filterMap_directive?_renumber (f : Nat → Nat) (lines : List Line) :
    (lines.map (Line.renumber f)).filterMap Line.directive? =
      (lines.filterMap Line.directive?).map (Directive.renumber f) := by
  rw [List.filterMap_map, List.map_filterMap]
  congr 1
  funext line
  unfold Function.comp Line.directive? Line.renumber
  cases line.statement with
  | none => rfl
  | some statement => cases statement <;> rfl

/-! ## Well-formed programs -/

theorem isLabelName_of_mem_labels {number : Nat} {cs name : List Char}
    (h : name ∈ (Line.ofText number cs).labels) : isLabelName name = true := by
  simp only [Line.ofText, List.mem_filterMap] at h
  obtain ⟨w, -, hw⟩ := h
  unfold definedLabel? at hw
  split at hw
  · next hlabel =>
    obtain rfl : w.text.dropLast = name := Option.some.inj hw
    exact hlabel.2
  · cases hw

theorem exists_ofText_of_mem {cs : List Char} {line : Line} (h : line ∈ Line.ofSource cs) :
    ∃ number text, line = Line.ofText number text := by
  obtain ⟨i, hi, rfl⟩ := List.mem_mapIdx.1 h
  exact ⟨_, _, rfl⟩

end Source

namespace Program

/-- What holds of every program that is read from a source. -/
structure WellFormed (p : Program) : Prop where
  fits : ∀ i ∈ p.instructions, i.Fits p.labels
  label_le : ∀ name index, p.label? name = some index → index ≤ p.size
  label_name : ∀ name index, p.label? name = some index → Source.isLabelName name.toList = true

/-- A source is read as a well-formed program. -/
theorem wellFormed_of_ofSource {source : String} {p : Program} (h : ofSource source = .ok p) :
    p.WellFormed := by
  obtain ⟨labels, is, hlabels, his, rfl⟩ := Source.assemble_eq_ok_iff.1 h
  obtain ⟨hlength, hfits⟩ := Source.instructions?_spec his
  have hlabel : ∀ {name index}, labels.get? name = some index →
      ∃ before line after, Source.Line.ofSource source.toList = before ++ line :: after ∧
        name ∈ line.names ∧ index = Source.countInstructions before := by
    intro name index hname
    rcases (Source.collectLabels_spec hlabels).1 hname with hnone | hsome
    · exact absurd hnone (by simp)
    · simpa using hsome
  refine ⟨fun i hi => hfits i (by simpa using hi), fun name index hname => ?_,
    fun name index hname => ?_⟩
  · obtain ⟨before, line, after, hlines, -, rfl⟩ := hlabel hname
    have hle : Source.countInstructions before ≤ is.length := by
      rw [hlength, hlines, Source.countInstructions_append]
      omega
    simpa [size] using hle
  · obtain ⟨before, line, after, hlines, hmem, -⟩ := hlabel hname
    obtain ⟨number, text, rfl⟩ := Source.exists_ofText_of_mem
      (hlines ▸ List.mem_append_right before List.mem_cons_self)
    obtain ⟨cs, hcs, rfl⟩ := List.mem_map.1 hmem
    rw [String.toList_ofList]
    exact Source.isLabelName_of_mem_labels hcs

end Program

end X64
