import X64.Proofs.Machine.Renumbering
import X64.Proofs.Source.Assembly
import Mathlib.Data.List.TakeWhile

/-!
# Lines without effect

Lines that are blank, or that hold only a comment or a directive, can be added to a source anywhere.
The program keeps its labels and its instructions, on later lines, and its runs keep their results.

* `Source.Filler` describes such a line by its text, and `Source.filler_iff` says that there are no
  other lines without a label and without an instruction.
* `Source.weave` puts lines between those of a source, and `Source.place` is where a line comes to
  stand. `Source.filter_ofTexts_weave` says that the active lines stay as they are, and
  `Source.perm_ofTexts_weave` that no line is lost.
* `Program.ofSource_weave` takes both passes over the lines.
-/

namespace X64

namespace Source

/-! ## Fillers -/

/-- The text of a line that is blank or holds only a comment, or holds a directive. A word in front
that ends in a colon may be a label, and then the line holds no directive. -/
inductive Filler : List Char → Prop
  | blank {text : List Char} (htext : Text.Blanks text) : Filler text
  | comment {pad rest : List Char} {mark : Char} (hpad : Text.Blanks pad)
      (hmark : isCommentMark mark = true) : Filler (pad ++ mark :: rest)
  | directive {text pad name rest : List Char}
      (hstrip : stripComment text = pad ++ '.' :: (name ++ rest)) (hpad : Text.Blanks pad)
      (hname : ∀ c ∈ name, Text.isBlank c = false)
      (hrest : ∀ c ∈ rest.head?, Text.isBlank c = true)
      (hlabel : ∀ label, '.' :: name = label ++ [':'] → isLabelName label = false) : Filler text

/-- Whether the line defines a label or holds an instruction. -/
def Line.isActive (line : Line) : Bool := !line.labels.isEmpty || line.isInstruction

theorem stripComment_comment {pad rest : List Char} {mark : Char} (hpad : Text.Blanks pad)
    (hmark : isCommentMark mark = true) : stripComment (pad ++ mark :: rest) = pad := by
  rw [stripComment_append fun c hc => .of_isBlank (hpad c hc), stripComment_mark hmark,
    List.append_nil]

theorem Line.ofText_of_trimStart_eq_nil {text : List Char}
    (h : Text.trimStart (stripComment text) = []) (number : Nat) :
    ofText number text = ⟨number, [], none⟩ := by
  rw [ofText, Text.trim, h]
  rfl

/-- The words of a line that is not blank. -/
theorem exists_words_of_trimStart {text cs : List Char} {c : Char}
    (h : Text.trimStart (stripComment text) = c :: cs) :
    ∃ gap ws, Text.words (Text.trim (stripComment text)) =
      ⟨(c :: cs).takeWhile fun d => !Text.isBlank d, gap⟩ :: ws := by
  have hc : Text.isBlank c = false := by
    have hhead := List.head?_dropWhile_not Text.isBlank (stripComment text)
    rw [← Text.trimStart, h] at hhead
    exact hhead
  rw [Text.trim, h, ← Text.takeWhile_trimEnd]
  refine Text.exists_words ?_
  rw [Text.trimEnd_cons, hc, Bool.and_false, if_neg Bool.false_ne_true]
  exact List.cons_ne_nil _ _

theorem Line.isInstruction_ofWords_iff {number : Nat} {labels : List (List Char)} {w : Text.Word}
    {ws : List Text.Word} :
    (⟨number, labels, Statement.ofWords? (w :: ws)⟩ : Line).isInstruction = false ↔
      ∃ name, w.text = '.' :: name := by
  rw [Statement.ofWords?]
  split
  · next name htext => simp [isInstruction, htext]
  · next hdot =>
    refine iff_of_false (by simp [isInstruction]) ?_
    rintro ⟨name, htext⟩
    exact hdot name htext

/-- The first word decides whether a line is active. -/
theorem Line.isActive_ofText_iff {text : List Char} {w : Text.Word} {ws : List Text.Word}
    (h : Text.words (Text.trim (stripComment text)) = w :: ws) (number : Nat) :
    (ofText number text).isActive = false ↔
      definedLabel? w = none ∧ ∃ name, w.text = '.' :: name := by
  rw [ofText, h]
  cases hw : definedLabel? w with
  | some label => simp [isActive, hw]
  | none =>
    simp only [isActive, hw, List.takeWhile_cons, List.dropWhile_cons, Option.isSome_none,
      Bool.false_eq_true, if_false, List.filterMap_nil, List.isEmpty_nil, Bool.not_true,
      Bool.false_or, true_and]
    exact isInstruction_ofWords_iff

/-- What stands in front of the first blank. -/
theorem takeWhile_of_head {name rest : List Char} (hname : ∀ c ∈ name, Text.isBlank c = false)
    (hrest : ∀ c ∈ rest.head?, Text.isBlank c = true) :
    (name ++ rest).takeWhile (fun c => !Text.isBlank c) = name := by
  have hnil : rest.takeWhile (fun c => !Text.isBlank c) = [] := by
    cases rest with
    | nil => rfl
    | cons c rest => exact List.takeWhile_cons_of_neg (by simp [hrest c rfl])
  rw [List.takeWhile_append_of_pos fun c hc => by simp [hname c hc], hnil, List.append_nil]

theorem definedLabel?_eq_none_iff {w : Text.Word} :
    definedLabel? w = none ↔ ∀ label, w.text = label ++ [':'] → isLabelName label = false := by
  unfold definedLabel?
  rw [ite_eq_right_iff]
  constructor
  · intro h label hw
    rw [hw, List.getLast?_concat, List.dropLast_concat] at h
    exact Bool.eq_false_iff.2 fun hlabel => absurd (h ⟨rfl, hlabel⟩) (by simp)
  · rintro h ⟨hlast, hlabel⟩
    obtain ⟨label, hw⟩ := List.getLast?_eq_some_iff.1 hlast
    rw [hw, List.dropLast_concat, h label hw] at hlabel
    cases hlabel

theorem Filler.isActive_eq_false {text : List Char} (h : Filler text) (number : Nat) :
    (Line.ofText number text).isActive = false := by
  have hblanks : ∀ {cs : List Char}, Text.Blanks cs → Text.trimStart cs = [] := fun hcs =>
    List.dropWhile_eq_nil_iff.2 hcs
  cases h with
  | blank htext =>
    have hstrip := stripComment_of_forall fun c hc => isCommentMark_of_isBlank (htext c hc)
    rw [Line.ofText_of_trimStart_eq_nil (by rw [hstrip]; exact hblanks htext)]
    rfl
  | comment hpad hmark =>
    rw [Line.ofText_of_trimStart_eq_nil
      (by rw [stripComment_comment hpad hmark]; exact hblanks hpad)]
    rfl
  | @directive text pad name rest hstrip hpad hname hrest hlabel =>
    have hdot : ∀ c ∈ '.' :: name, Text.isBlank c = false := by
      simpa using ⟨by decide, hname⟩
    have htrim : Text.trimStart (stripComment text) = '.' :: (name ++ rest) := by
      rw [hstrip, Text.trimStart_append hpad, Text.trimStart_of_head fun c hc => by
        cases hc
        decide]
    obtain ⟨gap, ws, hwords⟩ := exists_words_of_trimStart htrim
    rw [← List.cons_append, takeWhile_of_head hdot hrest] at hwords
    exact (Line.isActive_ofText_iff hwords number).2
      ⟨definedLabel?_eq_none_iff.2 hlabel, name, rfl⟩

/-- The lines without a label and without an instruction are those that are blank or hold only a
comment or a directive. -/
theorem filler_iff {text : List Char} (number : Nat) :
    Filler text ↔ (Line.ofText number text).isActive = false := by
  refine ⟨fun h => h.isActive_eq_false number, fun h => ?_⟩
  cases htrim : Text.trimStart (stripComment text) with
  | nil =>
    have hblanks : Text.Blanks (stripComment text) := List.dropWhile_eq_nil_iff.1 htrim
    rcases eq_stripCommentFrom_append .outside text with heq | ⟨mark, rest, hmark, heq⟩
    · rw [heq]
      exact .blank hblanks
    · rw [heq]
      exact .comment hblanks hmark
  | cons c cs =>
    obtain ⟨gap, ws, hwords⟩ := exists_words_of_trimStart htrim
    obtain ⟨hlabel, name, hname⟩ := (Line.isActive_ofText_iff hwords number).1 h
    have hword : '.' :: name = (c :: cs).takeWhile fun d => !Text.isBlank d := hname.symm
    have hbody : c :: cs = '.' :: (name ++ (c :: cs).dropWhile fun d => !Text.isBlank d) := by
      rw [← List.cons_append, hword, List.takeWhile_append_dropWhile]
    have hstrip : stripComment text = (stripComment text).takeWhile Text.isBlank ++
        '.' :: (name ++ (c :: cs).dropWhile fun d => !Text.isBlank d) := by
      rw [← hbody, ← htrim, Text.trimStart, List.takeWhile_append_dropWhile]
    refine .directive hstrip ?_ ?_ ?_ ?_
    · exact fun d hd => List.mem_takeWhile_imp hd
    · intro d hd
      have hmem : d ∈ (c :: cs).takeWhile fun d => !Text.isBlank d :=
        hword ▸ List.mem_cons_of_mem _ hd
      simpa using List.mem_takeWhile_imp hmem
    · intro d hd
      have hhead := List.head?_dropWhile_not (fun d => !Text.isBlank d) (c :: cs)
      rw [hd] at hhead
      simpa using hhead
    · exact fun label heq => definedLabel?_eq_none_iff.1 hlabel label (hname.trans heq)

/-! ## Insertion -/

section

variable {α : Type}

/-- The list with the elements of `extra k` in front of its element at index `k`, and with those of
the last `extra` at its end. -/
def weave (extra : Nat → List α) : List α → List α
  | [] => extra 0
  | x :: xs => extra 0 ++ x :: weave (fun k => extra (k + 1)) xs

/-- The number of line `n` after the insertion. It grows by the lines that are inserted above. -/
def place (extra : Nat → List α) (n : Nat) : Nat :=
  n + ((List.range n).flatMap extra).length

theorem add_place_succ (m : Nat) (extra : Nat → List α) (n : Nat) :
    m + place extra (n + 1) = m + (extra 0).length + 1 + place (fun k => extra (k + 1)) n := by
  have hrest : (List.range (n + 1)).flatMap extra =
      extra 0 ++ (List.range n).flatMap fun k => extra (k + 1) := by
    rw [List.range_succ_eq_map, List.flatMap_cons, List.flatMap_map]
  rw [place, place, hrest, List.length_append]
  omega

end

namespace Line

/-- The lines that are inserted, with the numbers that they get. -/
def inserted (extra : Nat → List (List Char)) (count : Nat) : List Line :=
  (List.range (count + 1)).flatMap fun k => ofTexts (place extra k) (extra k)

theorem ofTexts_weave_cons (m : Nat) (extra : Nat → List (List Char)) (text : List Char)
    (texts : List (List Char)) :
    ofTexts m (weave extra (text :: texts)) =
      ofTexts m (extra 0) ++ ofText (m + (extra 0).length + 1) text ::
        ofTexts (m + (extra 0).length + 1) (weave (fun k => extra (k + 1)) texts) := by
  rw [weave, ofTexts_append, ofTexts_cons]

theorem mapIdx_ofText_cons (m : Nat) (extra : Nat → List (List Char)) (text : List Char)
    (texts : List (List Char)) :
    ((text :: texts).mapIdx fun i text => ofText (m + place extra (i + 1)) text) =
      ofText (m + (extra 0).length + 1) text :: texts.mapIdx fun i text =>
        ofText (m + (extra 0).length + 1 + place (fun k => extra (k + 1)) (i + 1)) text := by
  simp only [List.mapIdx_cons, add_place_succ]
  rfl

theorem filter_ofTexts_of_filler {texts : List (List Char)} (h : ∀ text ∈ texts, Filler text)
    (m : Nat) : (ofTexts m texts).filter isActive = [] := by
  rw [List.filter_eq_nil_iff]
  intro line hline
  obtain ⟨i, hi, rfl⟩ := List.mem_mapIdx.1 hline
  rw [(filler_iff _).1 (h _ (List.getElem_mem hi))]
  exact Bool.false_ne_true

/-- The active lines stay as they are, on later lines. -/
theorem filter_ofTexts_weave {extra : Nat → List (List Char)}
    (hfiller : ∀ k, ∀ text ∈ extra k, Filler text) (m : Nat) (texts : List (List Char)) :
    (ofTexts m (weave extra texts)).filter isActive =
      (texts.mapIdx fun i text => ofText (m + place extra (i + 1)) text).filter isActive := by
  induction texts generalizing m extra with
  | nil => exact filter_ofTexts_of_filler (hfiller 0) m
  | cons text texts ih =>
    rw [ofTexts_weave_cons, mapIdx_ofText_cons, List.filter_append,
      filter_ofTexts_of_filler (hfiller 0), List.nil_append, List.filter_cons, List.filter_cons,
      ih fun k => hfiller (k + 1)]

/-- No line is lost, whatever is inserted. -/
theorem perm_ofTexts_weave (m : Nat) (extra : Nat → List (List Char)) (texts : List (List Char)) :
    (ofTexts m (weave extra texts)).Perm
      ((texts.mapIdx fun i text => ofText (m + place extra (i + 1)) text) ++
        (List.range (texts.length + 1)).flatMap fun k =>
          ofTexts (m + place extra k) (extra k)) := by
  induction texts generalizing m extra with
  | nil => simp [weave, place]
  | cons text texts ih =>
    have hrest := ih (m + (extra 0).length + 1) fun k => extra (k + 1)
    simp only [← add_place_succ] at hrest
    have hzero : m + place extra 0 = m := by simp [place]
    rw [ofTexts_weave_cons, mapIdx_ofText_cons, List.length_cons, List.range_succ_eq_map,
      List.flatMap_cons, List.flatMap_map, hzero]
    simp only [Nat.succ_eq_add_one, ← add_place_succ]
    -- The kept line moves to the front, and the first inserted lines behind the other kept ones.
    refine List.perm_middle.trans (List.Perm.cons _ ?_)
    exact (hrest.append_left _).trans (List.perm_append_comm_assoc _ _ _)

/-- The numbers of lines grow. -/
theorem pairwise_ofTexts (m : Nat) (texts : List (List Char)) :
    (ofTexts m texts).Pairwise fun line later => line.number < later.number := by
  induction texts generalizing m with
  | nil => exact List.Pairwise.nil
  | cons text texts ih =>
    rw [ofTexts_cons, List.pairwise_cons]
    refine ⟨fun later hlater => ?_, ih (m + 1)⟩
    obtain ⟨i, hi, rfl⟩ := List.mem_mapIdx.1 hlater
    change m + 1 < m + 1 + i + 1
    omega

end Line

/-! ## The two passes -/

theorem collectLabels_filter (index : Nat) (lines : List Line) (s : Labels) :
    collectLabels index (lines.filter Line.isActive) s = collectLabels index lines s := by
  induction lines generalizing index s with
  | nil => rfl
  | cons line rest ih =>
    cases hline : line.isActive with
    | true =>
      rw [List.filter_cons_of_pos hline, collectLabels, collectLabels]
      simp only [ih]
    | false =>
      have hparts : line.labels = [] ∧ line.isInstruction = false := by
        simpa [Line.isActive] using hline
      have hlabels : defineLabels index line s = .ok s := by
        rw [defineLabels, hparts.1]
        rfl
      rw [List.filter_cons_of_neg (by simp [hline]), ih, collectLabels, hlabels, hparts.2]
      rfl

theorem instructions?_filter (labels : Labels) (lines : List Line) :
    instructions? labels (lines.filter Line.isActive) = instructions? labels lines := by
  induction lines with
  | nil => rfl
  | cons line rest ih =>
    cases hinstruction : line.isInstruction with
    | true =>
      obtain ⟨name, texts, hstatement⟩ := exists_of_isInstruction hinstruction
      have hline : line.isActive = true := by simp [Line.isActive, hinstruction]
      rw [List.filter_cons_of_pos hline, instructions?_cons_instruction hstatement,
        instructions?_cons_instruction hstatement, ih]
    | false =>
      rw [instructions?_cons_other hinstruction, ← ih, List.filter_cons]
      split
      · exact instructions?_cons_other hinstruction _
      · rfl

theorem collectLabels_renumber (f : Nat → Nat) {index : Nat} {lines : List Line} {s t : Labels}
    (h : collectLabels index lines s = .ok t) :
    collectLabels index (lines.map (Line.renumber f)) s = .ok t := by
  induction lines generalizing index s with
  | nil => exact h
  | cons line rest ih =>
    rw [collectLabels, bind_eq_ok_iff] at h
    obtain ⟨u, hu, hrest⟩ := h
    have hu' : defineLabels index (line.renumber f) s = .ok u := by
      rw [defineLabels_eq_ok_iff] at hu ⊢
      exact hu
    rw [List.map_cons, collectLabels, hu', ok_bind]
    exact ih hrest

theorem instruction?_renumber (f : Nat → Nat) {labels : Labels} {number : Nat} {name : List Char}
    {texts : List (List Char)} {i : Instruction}
    (h : instruction? labels number name texts = .ok i) :
    instruction? labels (f number) name texts = .ok (i.renumber f) := by
  rw [instruction?_eq_ok_iff] at h ⊢
  obtain ⟨hm, hlength, hoperands, rfl⟩ := h
  exact ⟨hm, hlength, hoperands, rfl⟩

theorem instructions?_renumber (f : Nat → Nat) {labels : Labels} {lines : List Line}
    {is : List Instruction} (h : instructions? labels lines = .ok is) :
    instructions? labels (lines.map (Line.renumber f)) = .ok (is.map (Instruction.renumber f)) := by
  refine instructions?_map (fun line => ?_) (fun line name texts i hi => ?_) h
  · rfl
  · exact instruction?_renumber f hi

theorem line_of_directive? {line : Line} {d : Directive} (h : line.directive? = some d) :
    d.line = line.number := by
  unfold Line.directive? at h
  split at h
  · cases h
    rfl
  · cases h

/-- The directives of a source stand on lines with growing numbers. -/
theorem pairwise_directives (m : Nat) (texts : List (List Char)) :
    ((Line.ofTexts m texts).filterMap Line.directive?).Pairwise fun d later =>
      d.line < later.line := by
  refine (Line.pairwise_ofTexts m texts).filterMap _ fun line later hlt d hd e he => ?_
  rw [line_of_directive? hd, line_of_directive? he]
  exact hlt

end Source

/-! ## Programs -/

/-- A source with fillers between its lines is a program with the same labels, with the same
instructions on later lines, and with more directives. -/
theorem Program.ofSource_weave {source source' : String} {p : Program}
    {extra : Nat → List (List Char)} (h : ofSource source = .ok p)
    (hfiller : ∀ k, ∀ text ∈ extra k, Source.Filler text)
    (hlines : Text.lines source'.toList = Source.weave extra (Text.lines source.toList)) :
    ∃ p', ofSource source' = .ok p' ∧ p'.labels = p.labels ∧
      p'.instructions = p.instructions.map (.renumber (Source.place extra)) ∧
      p'.directives =
        (Source.Line.ofTexts 0 (Text.lines source'.toList)).filterMap Source.Line.directive? ∧
      p'.directives.Perm (p.directives.map (.renumber (Source.place extra)) ++
        (Source.Line.inserted extra (Text.lines source.toList).length).filterMap
          Source.Line.directive?) := by
  obtain ⟨labels, is, hlabels, his, rfl⟩ := Source.assemble_eq_ok_iff.1 h
  have hkept := Source.Line.map_renumber_ofSource (Source.place extra) source.toList
  have hactive := Source.Line.filter_ofTexts_weave hfiller 0 (Text.lines source.toList)
  have hperm := Source.Line.perm_ofTexts_weave 0 extra (Text.lines source.toList)
  simp only [Nat.zero_add, ← hlines, ← hkept] at hactive hperm
  have hread : ofSource source' = .ok
      { instructions := (is.map (.renumber (Source.place extra))).toArray, labels
        directives := (Source.Line.ofTexts 0 (Text.lines source'.toList)).filterMap
          Source.Line.directive? } := by
    rw [ofSource, Source.Line.ofSource_eq_ofTexts, Source.assemble_eq_ok_iff]
    refine ⟨labels, _, ?_, ?_, rfl⟩
    · rw [← Source.collectLabels_filter, hactive, Source.collectLabels_filter]
      exact Source.collectLabels_renumber _ hlabels
    · rw [← Source.instructions?_filter, hactive, Source.instructions?_filter]
      exact Source.instructions?_renumber _ his
  refine ⟨_, hread, rfl, by simp, rfl, ?_⟩
  rw [← Source.filterMap_directive?_renumber, ← List.filterMap_append]
  exact hperm.filterMap _

/-- Lines that hold no label and no instruction do not affect execution. Such lines are blank, or
hold only a comment or a directive. A source that is read as a program can be given more of them,
anywhere between its lines or at either end. Then it is read as a program with the same labels and,
on later lines, with the same instructions and directives, and with the inserted directives in their
places. Runs of the two programs from the same instruction end alike: with the same status, or with
the same error up to its line, and in machines that have all but the program in common. -/
theorem inserted_lines_do_not_affect_runs {source source' : String} {p : Program}
    {extra : Nat → List (List Char)} (h : Program.ofSource source = .ok p)
    (hfiller : ∀ k, ∀ text ∈ extra k, Source.Filler text)
    (hlines : Text.lines source'.toList = Source.weave extra (Text.lines source.toList)) :
    ∃ p', Program.ofSource source' = .ok p' ∧ p'.labels = p.labels ∧
      p'.instructions = p.instructions.map (.renumber (Source.place extra)) ∧
      p'.directives.Perm (p.directives.map (.renumber (Source.place extra)) ++
        (Source.Line.inserted extra (Text.lines source.toList).length).filterMap
          Source.Line.directive?) ∧
      (p'.directives.Pairwise fun d later => d.line < later.line) ∧
      ∀ (kernel : Kernel) (memorySize entry limit : Nat),
        (Machine.boot p' kernel memorySize).runFrom entry limit =
          ({ ((Machine.boot p kernel memorySize).runFrom entry limit).1 with program := p' },
            ((Machine.boot p kernel memorySize).runFrom entry limit).2.mapError
              (.renumber (Source.place extra))) := by
  obtain ⟨p', hp', hlabels, hinstructions, hdirectives, hperm⟩ :=
    Program.ofSource_weave h hfiller hlines
  refine ⟨p', hp', hlabels, hinstructions, hperm, ?_, fun kernel memorySize entry limit => ?_⟩
  · rw [hdirectives]
    exact Source.pairwise_directives 0 _
  · have hq : p'.instructions =
        (Machine.boot p kernel memorySize).program.instructions.map
          (.renumber (Source.place extra)) := hinstructions
    exact Machine.runFrom_renumber hq entry limit

/-- A source whose last instruction finds no stack in a machine without memory. -/
def popAtEnd : String := "start: nop\n jmp end\nend: pop rax"

/-- The program of `popAtEnd`. -/
def popAtEndProgram : Program where
  instructions :=
    #[⟨.nop, [], 1⟩, ⟨.jmp, [.label "end" 2], 2⟩, ⟨.pop, [.register ⟨.rax, .qword⟩], 3⟩]
  labels := (Labels.empty.insert "start" 0).insert "end" 2

/-- The same source with a comment at its head, with a directive and a blank line after its first
line, and with another comment at its end. -/
def popAtEndWithFillers : String :=
  "; head\nstart: nop\n.globl start\n\n jmp end\nend: pop rax\n  # tail"

/-- The lines that are inserted. -/
def popAtEndFillers : Nat → List (List Char)
  | 0 => ["; head".toList]
  | 1 => [".globl start".toList, []]
  | 3 => ["  # tail".toList]
  | _ => []

/-- The program has the directive, and its run fails at the same instruction, on the sixth line. -/
theorem popAtEndWithFillers_runs_alike :
    Program.ofSource popAtEnd = .ok popAtEndProgram ∧
      ((Machine.boot popAtEndProgram .linux 0).runFrom 0 9).2 =
        .error (.instruction 3 "pop rax" (.memory { address := 0, length := 8, size := 0 })) ∧
      ∃ p', Program.ofSource popAtEndWithFillers = .ok p' ∧
        p'.instructions =
          #[⟨.nop, [], 2⟩, ⟨.jmp, [.label "end" 2], 5⟩, ⟨.pop, [.register ⟨.rax, .qword⟩], 6⟩] ∧
        p'.directives = [⟨"globl", ["start"], 3⟩] ∧
        ((Machine.boot p' .linux 0).runFrom 0 9).2 =
          .error (.instruction 6 "pop rax" (.memory { address := 0, length := 8, size := 0 })) := by
  have hsource : Program.ofSource popAtEnd = .ok popAtEndProgram := by decide +kernel
  have hrun : ((Machine.boot popAtEndProgram .linux 0).runFrom 0 9).2 =
      .error (.instruction 3 "pop rax" (.memory { address := 0, length := 8, size := 0 })) := by
    decide +kernel
  have hfiller : ∀ k, ∀ text ∈ popAtEndFillers k, Source.Filler text := by
    intro k text htext
    have hfirst : ∀ k < 4, ∀ text ∈ popAtEndFillers k,
        (Source.Line.ofText 0 text).isActive = false := by decide +kernel
    rw [Source.filler_iff 0]
    by_cases hk : k < 4
    · exact hfirst k hk text htext
    · obtain ⟨j, rfl⟩ : ∃ j, k = j + 4 := ⟨k - 4, by omega⟩
      cases htext
  have hlines : Text.lines popAtEndWithFillers.toList =
      Source.weave popAtEndFillers (Text.lines popAtEnd.toList) := by decide +kernel
  obtain ⟨p', hp', -, hinstructions, hdirectives, -, hruns⟩ :=
    inserted_lines_do_not_affect_runs hsource hfiller hlines
  refine ⟨hsource, hrun, p', hp', ?_, ?_, ?_⟩
  · rw [hinstructions]
    decide +kernel
  · have hinserted : popAtEndProgram.directives.map (.renumber (Source.place popAtEndFillers)) ++
        (Source.Line.inserted popAtEndFillers (Text.lines popAtEnd.toList).length).filterMap
          Source.Line.directive? = [⟨"globl", ["start"], 3⟩] := by decide +kernel
    rw [hinserted] at hdirectives
    exact List.perm_singleton.1 hdirectives
  · rw [hruns, hrun]
    rfl

end X64
