import X64.Proofs.Source.Assembly

/-!
# Which error a source has

Reading goes over the lines twice, and each pass stops at its first error.

* The first pass. `definitions` lists the labels of the lines in order. `FirstRepeat` is the first
  of them whose name is not new, and `collectLabels_eq_error_iff` says that the pass stops there.
  A table that is collected is the table of the lines (`IsTable`, `collectLabels_eq_ok_iff`).
* The second pass. `Line.Fault` says what is wrong with a single line, where an unknown mnemonic
  counts before a wrong number of operands, and that before the leftmost operand that is not read.
  `instructions?_eq_error_iff` says that the first such line is to blame.

`Outcome` puts the passes together, and `source_outcome` says that it gives the result for every
source.
-/

namespace X64

namespace Source

/-! ## Labels -/

/-- The labels that lines define, in order, each with the number of its line. -/
def definitions (lines : List Line) : List (Nat × String) :=
  lines.flatMap fun line => line.names.map (line.number, ·)

/-- The first of a list of definitions whose name is known already, or that of an earlier one. -/
def FirstRepeat (known : String → Prop) (ds : List (Nat × String)) (d : Nat × String) : Prop :=
  ∃ before after, ds = before ++ d :: after ∧ (before.map Prod.snd).Nodup ∧
    (∀ name ∈ before.map Prod.snd, ¬known name) ∧ (known d.2 ∨ d.2 ∈ before.map Prod.snd)

section

variable {known : String → Prop} {d x : Nat × String} {xs ys : List (Nat × String)}

theorem not_firstRepeat_nil : ¬FirstRepeat known [] d := by
  intro ⟨before, after, h, _⟩
  simp at h

theorem firstRepeat_cons :
    FirstRepeat known (x :: xs) d ↔
      known x.2 ∧ d = x ∨ ¬known x.2 ∧ FirstRepeat (fun name => known name ∨ name = x.2) xs d := by
  constructor
  · intro ⟨before, after, hlist, hnodup, hnew, hrepeat⟩
    cases before with
    | nil =>
      obtain ⟨rfl, rfl⟩ := List.cons.inj hlist
      exact Or.inl ⟨by simpa using hrepeat, rfl⟩
    | cons y before =>
      obtain ⟨rfl, rfl⟩ := List.cons.inj hlist
      rw [List.map_cons] at hnodup hnew hrepeat
      obtain ⟨hnot, hnodup⟩ := List.nodup_cons.1 hnodup
      obtain ⟨hx, hnew⟩ := List.forall_mem_cons.1 hnew
      refine Or.inr ⟨hx, before, after, rfl, hnodup, fun name hname => ?_, ?_⟩
      · intro hold
        rcases hold with hknown | rfl
        · exact hnew name hname hknown
        · exact hnot hname
      · rcases hrepeat with hknown | hmem
        · exact Or.inl (Or.inl hknown)
        · rcases List.mem_cons.1 hmem with heq | hmem
          · exact Or.inl (Or.inr heq)
          · exact Or.inr hmem
  · intro h
    rcases h with ⟨hknown, rfl⟩ | ⟨hx, before, after, rfl, hnodup, hnew, hrepeat⟩
    · exact ⟨[], xs, rfl, List.nodup_nil, by simp, Or.inl hknown⟩
    · refine ⟨x :: before, after, rfl, ?_, ?_, ?_⟩
      · rw [List.map_cons, List.nodup_cons]
        exact ⟨fun hmem => hnew x.2 hmem (Or.inr rfl), hnodup⟩
      · rw [List.map_cons]
        exact List.forall_mem_cons.2 ⟨hx, fun name hname hknown => hnew name hname (Or.inl hknown)⟩
      · rw [List.map_cons, List.mem_cons]
        rcases hrepeat with (hknown | heq) | hmem
        · exact Or.inl hknown
        · exact Or.inr (Or.inl heq)
        · exact Or.inr (Or.inr hmem)

theorem forall_not_known_or_eq_iff :
    (∀ name ∈ xs.map Prod.snd, ¬(known name ∨ name = x.2)) ↔
      x.2 ∉ xs.map Prod.snd ∧ ∀ name ∈ xs.map Prod.snd, ¬known name := by
  constructor
  · intro h
    exact ⟨fun hmem => h _ hmem (Or.inr rfl), fun name hname hk => h name hname (Or.inl hk)⟩
  · intro ⟨hnot, h⟩ name hname hold
    rcases hold with hk | rfl
    · exact h name hname hk
    · exact hnot hname

/-- A repetition in two lists, one after the other. -/
theorem firstRepeat_append :
    FirstRepeat known (xs ++ ys) d ↔
      FirstRepeat known xs d ∨
        (xs.map Prod.snd).Nodup ∧ (∀ name ∈ xs.map Prod.snd, ¬known name) ∧
          FirstRepeat (fun name => name ∈ xs.map Prod.snd ∨ known name) ys d := by
  induction xs generalizing known with
  | nil => simp [not_firstRepeat_nil]
  | cons x xs ih =>
    have hknown : (fun name => name ∈ xs.map Prod.snd ∨ known name ∨ name = x.2) =
        fun name => name ∈ (x :: xs).map Prod.snd ∨ known name := by
      funext name
      rw [List.map_cons, List.mem_cons, eq_iff_iff]
      tauto
    rw [List.cons_append, firstRepeat_cons, firstRepeat_cons, ih, hknown,
      forall_not_known_or_eq_iff, List.map_cons, List.nodup_cons, List.forall_mem_cons]
    tauto

/-- There is a first repetition exactly if the names are not new or not different. -/
theorem exists_firstRepeat_iff :
    (∃ d, FirstRepeat known xs d) ↔
      ¬((xs.map Prod.snd).Nodup ∧ ∀ name ∈ xs.map Prod.snd, ¬known name) := by
  induction xs generalizing known with
  | nil => simp [not_firstRepeat_nil]
  | cons x xs ih =>
    simp only [firstRepeat_cons, exists_or, exists_and_left, exists_eq, and_true, ih]
    rw [forall_not_known_or_eq_iff, List.map_cons, List.nodup_cons, List.forall_mem_cons]
    tauto

end

/-- The first label of a line that the table has, or that the line repeats, is a duplicate. -/
theorem defineLabels_eq_error_iff {index : Nat} {line : Line} {s : Labels} {e : SourceError} :
    defineLabels index line s = .error e ↔
      ∃ d, FirstRepeat (fun name => (s.get? name).isSome = true)
          (line.names.map (line.number, ·)) d ∧ e = .duplicateLabel d.1 d.2 := by
  unfold defineLabels Line.names
  induction line.labels generalizing s with
  | nil =>
    simp only [List.map_nil, not_firstRepeat_nil, false_and, exists_false, iff_false]
    intro h
    cases h
  | cons name labels ih =>
    simp only [List.foldlM_cons, List.map_cons, firstRepeat_cons]
    cases hname : s.get? (String.ofList name) with
    | some i =>
      constructor
      · intro h
        cases h
        exact ⟨_, Or.inl ⟨rfl, rfl⟩, rfl⟩
      · intro h
        obtain ⟨d, ⟨-, rfl⟩ | ⟨hnone, -⟩, rfl⟩ := h
        · rfl
        · exact absurd rfl hnone
    | none =>
      have hknown : (fun key => ((s.insert (String.ofList name) index).get? key).isSome = true) =
          fun key => (s.get? key).isSome = true ∨ key = String.ofList name := by
        funext key
        rw [Labels.get?_insert]
        split <;> simp_all
      change List.foldlM _ (s.insert _ index) labels = _ ↔ _
      rw [ih, hknown]
      simp

theorem map_snd_definitions (line : Line) :
    (line.names.map (line.number, ·)).map Prod.snd = line.names := by
  rw [List.map_map]
  exact List.map_id _

/-- The first pass stops at the first label that is not new. -/
theorem collectLabels_eq_error_iff {index : Nat} {lines : List Line} {s : Labels}
    {e : SourceError} :
    collectLabels index lines s = .error e ↔
      ∃ d, FirstRepeat (fun name => (s.get? name).isSome = true) (definitions lines) d ∧
        e = .duplicateLabel d.1 d.2 := by
  induction lines generalizing index s with
  | nil =>
    simp only [definitions, List.flatMap_nil, not_firstRepeat_nil, false_and, exists_false,
      iff_false]
    intro h
    cases h
  | cons line rest ih =>
    have hdefinitions : definitions (line :: rest) =
        line.names.map (line.number, ·) ++ definitions rest := List.flatMap_cons
    have hknown {t : Labels} (ht : s.Extends line.names index t) :
        (fun name => name ∈ line.names ∨ (s.get? name).isSome = true) =
          fun name => (t.get? name).isSome = true := by
      funext name
      rw [ht.get?_eq name]
      split <;> simp_all
    simp only [collectLabels_cons, bind_eq_error_iff, hdefinitions, firstRepeat_append,
      map_snd_definitions, or_and_right, exists_or, defineLabels_eq_error_iff]
    refine or_congr_right ⟨?_, ?_⟩
    · intro ⟨t, ht, he⟩
      rw [defineLabels_eq_ok_iff] at ht
      obtain ⟨d, hd, rfl⟩ := ih.1 he
      refine ⟨d, ⟨ht.nodup, fun name hname => ?_, ?_⟩, rfl⟩
      · simp [ht.fresh name hname]
      · rw [hknown ht]
        exact hd
    · intro ⟨d, ⟨hnodup, hnew, hd⟩, he⟩
      subst he
      have hfresh : ∀ name ∈ line.names, s.get? name = none := fun name hname => by
        simpa using hnew name hname
      obtain ⟨t, ht⟩ := Labels.exists_extends hnodup hfresh index
      rw [hknown ht] at hd
      exact ⟨t, defineLabels_eq_ok_iff.2 ht, ih.2 ⟨d, hd, rfl⟩⟩

/-- The table of a list of lines. No name is defined twice, and a label stands for the number of
instructions on the lines before its own. -/
structure IsTable (lines : List Line) (labels : Labels) : Prop where
  nodup : ((definitions lines).map Prod.snd).Nodup
  get?_eq : ∀ name index, labels.get? name = some index ↔
    ∃ before line after, lines = before ++ line :: after ∧ name ∈ line.names ∧
      index = countInstructions before

theorem collectLabels_eq_ok_iff {lines : List Line} {labels : Labels} :
    collectLabels 0 lines .empty = .ok labels ↔ IsTable lines labels := by
  have hspec {t : Labels} (ht : collectLabels 0 lines .empty = .ok t) (name : String) (i : Nat) :
      t.get? name = some i ↔ ∃ before line after, lines = before ++ line :: after ∧
        name ∈ line.names ∧ i = countInstructions before := by
    rw [collectLabels_spec ht]
    simp
  have hrepeat : (∃ d, FirstRepeat (fun name => (Labels.empty.get? name).isSome = true)
      (definitions lines) d) ↔ ¬((definitions lines).map Prod.snd).Nodup := by
    rw [exists_firstRepeat_iff]
    simp
  constructor
  · intro h
    refine ⟨Classical.byContradiction fun hnodup => ?_, hspec h⟩
    obtain ⟨d, hd⟩ := hrepeat.2 hnodup
    have herror : collectLabels 0 lines .empty = .error (.duplicateLabel d.1 d.2) :=
      collectLabels_eq_error_iff.2 ⟨d, hd, rfl⟩
    rw [h] at herror
    cases herror
  · intro h
    cases ht : collectLabels 0 lines .empty with
    | error e =>
      obtain ⟨d, hd, -⟩ := collectLabels_eq_error_iff.1 ht
      exact absurd h.nodup (hrepeat.1 ⟨d, hd⟩)
    | ok t =>
      rw [Except.ok.injEq]
      refine Labels.ext_get? fun name => Option.ext fun i => ?_
      rw [hspec ht, h.get?_eq]

/-! ## Instructions -/

/-- The error of a source with an operand that is not read. -/
def OperandFailure.located (number : Nat) (text : List Char) : OperandFailure → SourceError
  | .invalid error => .invalidOperand number (String.ofList text) error
  | .undefined => .undefinedLabel number (String.ofList text)

/-- What is wrong with the instruction on a line: the mnemonic, or the number of the operands, or
the leftmost operand that is not read. -/
inductive Line.Fault (labels : Labels) (line : Line) : SourceError → Prop
  | unknownMnemonic {name : List Char} {texts : List (List Char)}
      (hline : line.statement = some (.instruction name texts))
      (hm : Mnemonic.ofName? name = none) :
      Fault labels line (.unknownMnemonic line.number (String.ofList name))
  | arity {name : List Char} {texts : List (List Char)} {m : Mnemonic}
      (hline : line.statement = some (.instruction name texts))
      (hm : Mnemonic.ofName? name = some m) (hlength : texts.length ≠ m.arity) :
      Fault labels line (.arity line.number m texts.length)
  | operand {name : List Char} {m : Mnemonic} {before after : List (List Char)}
      {text : List Char} {failure : OperandFailure}
      (hline : line.statement = some (.instruction name (before ++ text :: after)))
      (hm : Mnemonic.ofName? name = some m)
      (hlength : (before ++ text :: after).length = m.arity)
      (hbefore : ∀ t ∈ before, ∃ o, operand? labels m t = .ok o)
      (htext : operand? labels m text = .error failure) :
      Fault labels line (failure.located line.number text)

/-- The instruction on a line is the given one: its mnemonic, as many operands as that takes, each
read from its text, and the number of the line. -/
def Line.Holds (labels : Labels) (line : Line) (i : Instruction) : Prop :=
  ∃ name texts, line.statement = some (.instruction name texts) ∧
    Mnemonic.ofName? name = some i.mnemonic ∧ texts.length = i.mnemonic.arity ∧
    List.Forall₂ (fun text o => operand? labels i.mnemonic text = .ok o) texts i.operands ∧
    i.line = line.number

section

variable {labels : Labels} {line : Line} {lines : List Line} {e : SourceError}

theorem instruction?_eq_mapM {name : List Char} {texts : List (List Char)} {m : Mnemonic}
    (hm : Mnemonic.ofName? name = some m) (hlength : texts.length = m.arity) (number : Nat) :
    instruction? labels number name texts =
      (texts.mapM fun text =>
        (operand? labels m text).mapError (OperandFailure.located number text)) >>= fun operands =>
          pure { mnemonic := m, operands, line := number } := by
  rw [instruction?, hm]
  simp only [hlength, ne_eq, not_true_eq_false, if_false]
  rfl

theorem fault_of_instruction? {name : List Char} {texts : List (List Char)}
    (hline : line.statement = some (.instruction name texts))
    (h : instruction? labels line.number name texts = .error e) : line.Fault labels e := by
  cases hm : Mnemonic.ofName? name with
  | none =>
    rw [instruction?, hm] at h
    cases h
    exact .unknownMnemonic hline hm
  | some m =>
    by_cases hlength : texts.length = m.arity
    · rw [instruction?_eq_mapM hm hlength] at h
      rcases bind_eq_error_iff.1 h with h | ⟨operands, -, h⟩
      · obtain ⟨before, text, after, rfl, hbefore, htext⟩ := mapM_eq_error_iff.1 h
        obtain ⟨failure, hfailure, rfl⟩ := mapError_eq_error_iff.1 htext
        refine .operand hline hm hlength (fun t ht => ?_) hfailure
        exact (hbefore t ht).imp fun o ho => mapError_eq_ok_iff.1 ho
      · cases h
    · rw [instruction?, hm] at h
      simp only [ne_eq, hlength, not_false_eq_true, if_true] at h
      cases h
      exact .arity hline hm hlength

theorem instruction?_of_fault (h : line.Fault labels e) : ∃ name texts,
    line.statement = some (.instruction name texts) ∧
      instruction? labels line.number name texts = .error e := by
  cases h with
  | @unknownMnemonic name texts hline hm =>
    refine ⟨name, texts, hline, ?_⟩
    rw [instruction?, hm]
  | @arity name texts m hline hm hlength =>
    refine ⟨name, texts, hline, ?_⟩
    rw [instruction?, hm]
    exact if_pos hlength
  | @operand name m before after text failure hline hm hlength hbefore htext =>
    refine ⟨name, _, hline, ?_⟩
    rw [instruction?_eq_mapM hm hlength]
    refine bind_eq_error_iff.2 (Or.inl (mapM_eq_error_iff.2 ⟨before, text, after, rfl, ?_, ?_⟩))
    · exact fun t ht => (hbefore t ht).imp fun o ho => mapError_eq_ok_iff.2 ho
    · exact mapError_eq_error_iff.2 ⟨_, htext, rfl⟩

/-- The faults of a line are the errors of its instruction. -/
theorem fault_iff {name : List Char} {texts : List (List Char)}
    (hline : line.statement = some (.instruction name texts)) :
    line.Fault labels e ↔ instruction? labels line.number name texts = .error e := by
  refine ⟨fun h => ?_, fault_of_instruction? hline⟩
  obtain ⟨name', texts', hline', he⟩ := instruction?_of_fault h
  rw [hline] at hline'
  cases hline'
  exact he

theorem not_fault_of_isInstruction (h : line.isInstruction = false) : ¬line.Fault labels e := by
  intro hfault
  obtain ⟨name, texts, hline, -⟩ := instruction?_of_fault hfault
  simp [Line.isInstruction, hline] at h

/-- The instructions of the lines, in order. -/
theorem instructions?_eq_ok_iff {is : List Instruction} :
    instructions? labels lines = .ok is ↔
      List.Forall₂ (Line.Holds labels) (lines.filter Line.isInstruction) is := by
  induction lines generalizing is with
  | nil =>
    rw [List.filter_nil, List.forall₂_nil_left_iff]
    exact ⟨fun h => (Except.ok.inj h).symm, fun h => congrArg Except.ok h.symm⟩
  | cons line rest ih =>
    cases hinstruction : line.isInstruction with
    | false =>
      rw [instructions?_cons_other hinstruction, List.filter_cons_of_neg (by simp [hinstruction]),
        ih]
    | true =>
      obtain ⟨name, texts, hline⟩ := exists_of_isInstruction hinstruction
      have hholds (i : Instruction) :
          instruction? labels line.number name texts = .ok i ↔ line.Holds labels i := by
        simp [instruction?_eq_ok_iff, Line.Holds, hline]
      rw [instructions?_cons_eq_ok_iff hline, List.filter_cons_of_pos hinstruction,
        List.forall₂_cons_left_iff]
      simp only [hholds, ih]

/-- The second pass stops at the first line with a fault. -/
theorem instructions?_eq_error_iff :
    instructions? labels lines = .error e ↔ ∃ before line after, lines = before ++ line :: after ∧
      (∀ l ∈ before, ∀ e', ¬l.Fault labels e') ∧ line.Fault labels e := by
  induction lines with
  | nil => simp [instructions?]
  | cons line rest ih =>
    rw [exists_first_cons_iff, ← ih]
    cases hinstruction : line.isInstruction with
    | false =>
      have hclean (e' : SourceError) : ¬line.Fault labels e' :=
        not_fault_of_isInstruction hinstruction
      rw [instructions?_cons_other hinstruction]
      simp [hclean]
    | true =>
      obtain ⟨name, texts, hline⟩ := exists_of_isInstruction hinstruction
      rw [instructions?_cons_instruction hline]
      rw [bind_eq_error_iff]
      simp only [bind_pure_eq_error_iff, fault_iff hline, exists_and_right, exists_ok_iff, ne_eq]

end

/-! ## Outcomes -/

/-- What reading gives for a list of lines. The first label that repeats an earlier one is an error,
whatever else is wrong. If there is none, the first line with a fault is to blame. If there is none
of these either, the lines are a program. -/
inductive Outcome (lines : List Line) : Except SourceError Program → Prop
  | duplicate {before after : List (Nat × String)} {number : Nat} {name : String}
      (hlist : definitions lines = before ++ (number, name) :: after)
      (hbefore : (before.map Prod.snd).Nodup) (hname : name ∈ before.map Prod.snd) :
      Outcome lines (.error (.duplicateLabel number name))
  | fault {labels : Labels} {before after : List Line} {line : Line} {e : SourceError}
      (hlabels : IsTable lines labels) (hlist : lines = before ++ line :: after)
      (hbefore : ∀ l ∈ before, ∀ e', ¬l.Fault labels e') (he : line.Fault labels e) :
      Outcome lines (.error e)
  | program {labels : Labels} {is : List Instruction} (hlabels : IsTable lines labels)
      (his : List.Forall₂ (Line.Holds labels) (lines.filter Line.isInstruction) is) :
      Outcome lines
        (.ok
          { instructions := is.toArray, labels,
            directives := lines.filterMap Line.directive? })

theorem assemble_eq_error_iff {lines : List Line} {e : SourceError} :
    assemble lines = .error e ↔
      collectLabels 0 lines .empty = .error e ∨ ∃ labels,
        collectLabels 0 lines .empty = .ok labels ∧ instructions? labels lines = .error e := by
  unfold assemble
  rw [bind_eq_error_iff]
  simp only [bind_pure_eq_error_iff]

theorem assemble_eq_iff_outcome {lines : List Line} {result : Except SourceError Program} :
    assemble lines = result ↔ Outcome lines result := by
  constructor
  · intro h
    cases result with
    | error e =>
      rcases assemble_eq_error_iff.1 h with h | ⟨labels, hlabels, h⟩
      · obtain ⟨⟨number, name⟩, ⟨before, after, hlist, hbefore, -, hrepeat⟩, rfl⟩ :=
          collectLabels_eq_error_iff.1 h
        exact .duplicate hlist hbefore (hrepeat.resolve_left (by simp))
      · obtain ⟨before, line, after, hlist, hbefore, he⟩ := instructions?_eq_error_iff.1 h
        exact .fault (collectLabels_eq_ok_iff.1 hlabels) hlist hbefore he
    | ok p =>
      obtain ⟨labels, is, hlabels, his, rfl⟩ := assemble_eq_ok_iff.1 h
      exact .program (collectLabels_eq_ok_iff.1 hlabels) (instructions?_eq_ok_iff.1 his)
  · intro h
    cases h with
    | @duplicate before after number name hlist hbefore hname =>
      have hfirst : FirstRepeat (fun name => (Labels.empty.get? name).isSome = true)
          (definitions lines) (number, name) :=
        ⟨before, after, hlist, hbefore, by simp, Or.inr hname⟩
      exact assemble_eq_error_iff.2 (Or.inl (collectLabels_eq_error_iff.2 ⟨_, hfirst, rfl⟩))
    | @fault labels before after line e hlabels hlist hbefore he =>
      refine assemble_eq_error_iff.2 (Or.inr ⟨labels, collectLabels_eq_ok_iff.2 hlabels, ?_⟩)
      exact instructions?_eq_error_iff.2 ⟨before, line, after, hlist, hbefore, he⟩
    | program hlabels his =>
      exact assemble_eq_ok_iff.2
        ⟨_, _, collectLabels_eq_ok_iff.2 hlabels, instructions?_eq_ok_iff.2 his, rfl⟩

theorem Line.map_number_ofSource (cs : List Char) :
    (ofSource cs).map number = List.range' 1 (Text.lines cs).length := by
  refine List.ext_getElem (by simp [ofSource]) fun i hi hi' => ?_
  rw [List.getElem_map, List.getElem_range']
  simp [ofSource, ofText, Nat.add_comm]

end Source

/-- The result of reading a source is given by the list of its lines, which are numbered from
one. -/
theorem source_outcome (source : String) (result : Except SourceError Program) :
    (Source.Line.ofSource source.toList).map Source.Line.number =
        List.range' 1 (Text.lines source.toList).length ∧
      (Program.ofSource source = result ↔
        Source.Outcome (Source.Line.ofSource source.toList) result) :=
  ⟨Source.Line.map_number_ofSource source.toList, Source.assemble_eq_iff_outcome⟩

/-- Labels in all places: two on a line of their own, one in front of an instruction, and one at the
end. -/
def manyLabels : String := "a: b:\nc: nop\n.globl a\njmp d\nd:"

/-- The program of `manyLabels`. -/
def manyLabelsProgram : Program where
  instructions := #[⟨.nop, [], 2⟩, ⟨.jmp, [.label "d" 2], 4⟩]
  labels := .ofList [("a", 0), ("b", 0), ("c", 0), ("d", 2)]
  directives := [⟨"globl", ["a"], 3⟩]

/-- A label that is defined twice on the second line comes before an unknown instruction on the
first. Labels in all places are found. -/
theorem manyLabels_outcome :
    Program.ofSource "foo\nx: x: mov" = .error (.duplicateLabel 2 "x") ∧
      Source.Outcome (Source.Line.ofSource manyLabels.toList) (.ok manyLabelsProgram) := by
  constructor
  · refine (source_outcome "foo\nx: x: mov" _).2.2 ?_
    have hlist : Source.definitions (Source.Line.ofSource "foo\nx: x: mov".toList) =
        [(2, "x")] ++ (2, "x") :: [] := by decide +kernel
    exact .duplicate hlist (by decide) (by decide)
  · refine (source_outcome manyLabels _).2.1 ?_
    decide +kernel

end X64
