import X64.Proofs.Source.Case
import Mathlib.Logic.Relation

/-!
# The spelling of a line

A line may be spelled in many ways. `LineEdit` lists the changes that do not matter: blanks may be
added at its ends and around the commas between operands, or changed behind a label or a mnemonic;
a comment may be added; and letters may change their case, except in the names of labels. An `Edit`
changes one line of a source like this.

Each of them leaves the line alike (`LineEdit.alike`), which is shown part by part: what stands in
front of a statement is a `LabelRun`, and the rest of an instruction is known by its mnemonic and
its operand list (`ofText_operands`). `Program.spelling_does_not_matter` follows for any number of
edits.
-/

namespace X64

namespace Source

/-! ## Edits -/

/-- What may stand in front of a statement or a further label: labels, each with blanks behind. -/
inductive LabelRun : List Char → Prop
  | blanks {pad : List Char} (hpad : Text.Blanks pad) : LabelRun pad
  | label {pad name gap rest : List Char} (hpad : Text.Blanks pad)
      (hname : isLabelName name = true) (hgap : Text.Blanks gap) (hne : gap ≠ [])
      (hrest : LabelRun rest) : LabelRun (pad ++ (name ++ ':' :: (gap ++ rest)))

/-- Where the scan for a comment ends: at a comment mark, or at the end of the line. -/
def endOfScan (line : List Char) : Quoting := (stripComment line).foldl Quoting.next .outside

/-- A change to the spelling of a line. -/
inductive LineEdit : List Char → List Char → Prop
  | padStart {pad : List Char} (line : List Char) (hpad : Text.Blanks pad) :
      LineEdit line (pad ++ line)
  | padEnd {pad : List Char} (line : List Char) (hpad : Text.Blanks pad) :
      LineEdit line (line ++ pad)
  | carriageReturn (line : List Char) : LineEdit line (line ++ ['\r'])
  | comment {line : List Char} {mark : Char} (text : List Char) (hmark : isCommentMark mark = true)
      (hscan : endOfScan line = .outside) : LineEdit line (line ++ mark :: text)
  | labelGap {front name gap gap' : List Char} (rest : List Char) (hfront : LabelRun front)
      (hname : isLabelName name = true) (hgap : Text.Blanks gap) (hne : gap ≠ [])
      (hgap' : Text.Blanks gap') (hne' : gap' ≠ []) :
      LineEdit (front ++ (name ++ ':' :: (gap ++ rest))) (front ++ (name ++ ':' :: (gap' ++ rest)))
  | mnemonicGap {front name gap gap' : List Char} {m : Mnemonic} (rest : List Char)
      (hfront : LabelRun front) (hm : Mnemonic.ofName? name = some m) (hgap : Text.Blanks gap)
      (hne : gap ≠ []) (hgap' : Text.Blanks gap') (hne' : gap' ≠ []) :
      LineEdit (front ++ (name ++ (gap ++ rest))) (front ++ (name ++ (gap' ++ rest)))
  -- No comment begins in front of the comma, so operands are separated by it.
  | comma {front name gap operands pad pad' : List Char} {m : Mnemonic} (rest : List Char)
      (hfront : LabelRun front) (hm : Mnemonic.ofName? name = some m) (hgap : Text.Blanks gap)
      (hne : gap ≠ []) (hcode : stripComment operands = operands) (hpad : Text.Blanks pad)
      (hpad' : Text.Blanks pad') :
      LineEdit (front ++ (name ++ (gap ++ (operands ++ ',' :: rest))))
        (front ++ (name ++ (gap ++ (operands ++ (pad ++ ',' :: (pad' ++ rest))))))
  -- The mnemonic is the whole word, and not only the front of it.
  | mnemonicCase {front name name' rest : List Char} {m : Mnemonic} (hfront : LabelRun front)
      (hm : Mnemonic.ofName? name = some m)
      (hcase : name.map Char.toLower = name'.map Char.toLower)
      (hrest : ∀ c ∈ rest.head?, Text.isBlank c = true ∨ isCommentMark c = true) :
      LineEdit (front ++ (name ++ rest)) (front ++ (name' ++ rest))
  | operandCase {front name gap operands operands' : List Char} {m : Mnemonic} (rest : List Char)
      (hfront : LabelRun front) (hm : Mnemonic.ofName? name = some m)
      (hvalue : m.takesLabel = false) (hgap : Text.Blanks gap) (hne : gap ≠ [])
      (hcase : operands.map Char.toLower = operands'.map Char.toLower) :
      LineEdit (front ++ (name ++ (gap ++ (operands ++ rest))))
        (front ++ (name ++ (gap ++ (operands' ++ rest))))

/-- A change to the spelling of one line of a source. Neither the old line nor the new one has a
newline in it, and a carriage return in front of the newline behind it belongs to the newline. -/
inductive Edit : List Char → List Char → Prop
  | line {before line line' ending after : List Char}
      (hbefore : before = [] ∨ before.getLast? = some '\n')
      (hafter : after = [] ∨ after.head? = some '\n') (hline : '\n' ∉ line) (hline' : '\n' ∉ line')
      (hending : ending = [] ∨ ending = ['\r']) (h : LineEdit line line') :
      Edit (before ++ (line ++ (ending ++ after))) (before ++ (line' ++ (ending ++ after)))

/-! ## Parts of a line -/

/-- A comment is removed again. -/
theorem stripComment_append_comment {line : List Char} {mark : Char}
    (hmark : isCommentMark mark = true) (hscan : endOfScan line = .outside) (text : List Char) :
    stripComment (line ++ mark :: text) = stripComment line := by
  by_cases hcode : stripComment line = line
  · rw [endOfScan, hcode] at hscan
    have hcut := stripCommentFrom_append hcode (mark :: text)
    rw [hscan] at hcut
    exact hcut.trans (by rw [← stripComment, stripComment_mark hmark, List.append_nil, hcode])
  -- The new comment is part of one that is there already.
  · exact stripCommentFrom_append_of_ne hcode _

/-- Behind labels a line is changed as it would be without them. -/
theorem LabelRun.alike {front : List Char} (hfront : LabelRun front) {number : Nat}
    {cs cs' : List Char} (h : (Line.ofText number cs).Alike (Line.ofText number cs')) :
    (Line.ofText number (front ++ cs)).Alike (Line.ofText number (front ++ cs')) := by
  induction hfront with
  | blanks hpad => rwa [Line.ofText_append_left hpad, Line.ofText_append_left hpad]
  | @label pad name gap rest hpad hname hgap hne _ ih =>
    have hfirst (tail : List Char) : Line.ofText number
        (pad ++ (name ++ ':' :: (gap ++ rest)) ++ tail) =
          { Line.ofText number (rest ++ tail) with
            labels := name :: (Line.ofText number (rest ++ tail)).labels } := by
      rw [← Line.ofText_label_append hname hgap hne, List.append_assoc,
        Line.ofText_append_left hpad, List.append_assoc, List.cons_append, List.append_assoc]
    rw [hfirst, hfirst]
    exact ⟨ih.number, congrArg (name :: ·) ih.labels, ih.statement⟩

/-- The case of letters does not matter to comments. -/
theorem stripComment_map_toLower (cs : List Char) :
    stripComment (cs.map Char.toLower) = (stripComment cs).map Char.toLower := by
  have hscan (q : Quoting) :
      stripCommentFrom q (cs.map Char.toLower) = (stripCommentFrom q cs).map Char.toLower := by
    induction cs generalizing q with
    | nil => rfl
    | cons c cs ih =>
      have hchar {d : Char} (hd : d.isAlpha = false) : c.toLower = d ↔ c = d :=
        Text.toLower_eq_iff hd
      have hmark : isCommentMark c.toLower = isCommentMark c := by
        rw [Bool.eq_iff_iff]
        simp [isCommentMark, hchar]
      have hnext : q.next c.toLower = q.next c := by
        cases q <;> simp [Quoting.next, hchar]
      rw [List.map_cons, stripCommentFrom, stripCommentFrom, hmark, hnext, ih]
      split <;> rfl
  exact hscan .outside

/-- An instruction is known by its mnemonic and the text behind that. -/
theorem ofText_operands {name gap : List Char} {m : Mnemonic}
    (hm : Mnemonic.ofName? name = some m) (hgap : Text.Blanks gap) (hne : gap ≠ []) (number : Nat)
    (text : List Char) :
    Line.ofText number (name ++ (gap ++ text)) =
      ⟨number, [], some (.instruction name (Text.items (stripComment text)))⟩ := by
  have hhead : ∀ c ∈ (gap ++ text).head?, Text.isBlank c = true ∨ isCommentMark c = true := by
    intro c hc
    rw [List.head?_append_of_ne_nil _ hne] at hc
    exact Or.inl (hgap c (List.mem_of_mem_head? hc))
  obtain ⟨hnameNe, hletters⟩ := Mnemonic.letters_of_ofName? hm
  rw [Line.ofText_mnemonic hletters hnameNe hhead,
    stripComment_append fun c hc => .of_isBlank (hgap c hc), Text.items_append_left hgap]

/-- Characters that do not matter to strings leave the scan where a comma leaves it. -/
theorem foldl_next_of_forall {cs : List Char} (h : ∀ c ∈ cs, c ≠ '"' ∧ c ≠ '\\') (hne : cs ≠ [])
    (q : Quoting) : cs.foldl Quoting.next q = q.next ',' := by
  induction cs generalizing q with
  | nil => exact absurd rfl hne
  | cons c cs ih =>
    obtain ⟨hc, hcs⟩ := List.forall_mem_cons.1 h
    have hnext : q.next c = q.next ',' := by
      cases q <;> simp [Quoting.next, hc]
    rw [List.foldl_cons, hnext]
    cases cs with
    | nil => rfl
    | cons d cs =>
      rw [ih hcs (by simp)]
      cases q <;> rfl

/-- Blanks around a comma that stands in front of a comment do not count. -/
theorem items_comma {operands pad pad' : List Char} (hcode : stripComment operands = operands)
    (hpad : Text.Blanks pad) (hpad' : Text.Blanks pad') (rest : List Char) :
    Text.items (stripComment (operands ++ (pad ++ ',' :: (pad' ++ rest)))) =
      Text.items operands ++
        Text.items (stripCommentFrom ((operands.foldl Quoting.next .outside).next ',') rest) := by
  have hblank {c : Char} (hc : Text.isBlank c = true) :
      isCommentMark c = false ∧ c ≠ '"' ∧ c ≠ '\\' := by
    refine ⟨isCommentMark_of_isBlank hc, (IsPlain.of_isBlank hc).1, ?_⟩
    rintro rfl
    exact absurd hc (by decide)
  have hquiet : ∀ c ∈ pad ++ ',' :: pad', isCommentMark c = false ∧ c ≠ '"' ∧ c ≠ '\\' :=
    List.forall_mem_append.2 ⟨fun c hc => hblank (hpad c hc),
      List.forall_mem_cons.2 ⟨by decide, fun c hc => hblank (hpad' c hc)⟩⟩
  have hscan (q : Quoting) : stripCommentFrom q (pad ++ ',' :: (pad' ++ rest)) =
      pad ++ ',' :: (pad' ++ stripCommentFrom (q.next ',') rest) := by
    have hcut := stripCommentFrom_append
      (stripCommentFrom_of_forall (fun c hc => (hquiet c hc).1) q) rest
    rw [foldl_next_of_forall (fun c hc => (hquiet c hc).2) (by simp)] at hcut
    simpa only [List.append_assoc, List.cons_append] using hcut
  rw [stripComment, stripCommentFrom_append hcode, hscan, ← List.append_assoc,
    Text.items_append_comma, Text.items_append_right hpad, Text.items_append_left hpad']

/-- A change to the spelling leaves a line alike. -/
theorem LineEdit.alike {line line' : List Char} (h : LineEdit line line') (number : Nat) :
    (Line.ofText number line).Alike (Line.ofText number line') := by
  cases h with
  | padStart _ hpad => exact .of_eq (Line.ofText_append_left hpad number line).symm
  | padEnd _ hpad => exact .of_eq (Line.ofText_append_right hpad number line).symm
  | carriageReturn =>
    exact .of_eq (Line.ofText_append_right (show Text.Blanks ['\r'] by decide) number line).symm
  | comment text hmark hscan =>
    refine .of_eq ?_
    rw [Line.ofText, Line.ofText, stripComment_append_comment hmark hscan]
  | labelGap rest hfront hname hgap hne hgap' hne' =>
    refine hfront.alike (.of_eq ?_)
    rw [Line.ofText_label_append hname hgap hne, Line.ofText_label_append hname hgap' hne']
  | mnemonicGap rest hfront hm hgap hne hgap' hne' =>
    refine hfront.alike (.of_eq ?_)
    rw [ofText_operands hm hgap hne, ofText_operands hm hgap' hne']
  | comma rest hfront hm hgap hne hcode hpad hpad' =>
    refine hfront.alike (.of_eq ?_)
    have hplain := items_comma hcode Text.blanks_nil Text.blanks_nil rest
    rw [List.nil_append, List.nil_append] at hplain
    rw [ofText_operands hm hgap hne, ofText_operands hm hgap hne, hplain,
      items_comma hcode hpad hpad']
  | @mnemonicCase _ name name' rest m hfront hm hcase hrest =>
    have hm' : Mnemonic.ofName? name' = some m := Mnemonic.ofName?_congr hcase ▸ hm
    obtain ⟨hne, hletters⟩ := Mnemonic.letters_of_ofName? hm
    obtain ⟨hne', hletters'⟩ := Mnemonic.letters_of_ofName? hm'
    refine hfront.alike ?_
    rw [Line.ofText_mnemonic hletters hne hrest, Line.ofText_mnemonic hletters' hne' hrest]
    exact ⟨rfl, rfl, .mnemonic _ hcase⟩
  | @operandCase _ name gap operands operands' m rest hfront hm hvalue hgap hne hcase =>
    refine hfront.alike ?_
    rw [ofText_operands hm hgap hne, ofText_operands hm hgap hne]
    refine ⟨rfl, rfl, .operands hm hvalue ?_⟩
    rw [← Text.items_map_toLower, ← Text.items_map_toLower, ← stripComment_map_toLower,
      ← stripComment_map_toLower, List.map_append, List.map_append, hcase]

/-! ## Sources -/

/-- An edit leaves the lines of a source alike, and their numbers as they are. -/
theorem assemble_of_edit {cs cs' : List Char} (h : Edit cs cs') {p : Program}
    (hp : assemble (Line.ofSource cs) = .ok p) : assemble (Line.ofSource cs') = .ok p := by
  obtain @⟨before, line, line', ending, after, hbefore, hafter, hline, hline', hending, h⟩ := h
  -- With a newline behind the source, there is one behind every line.
  obtain ⟨rest, hrest⟩ : ∃ rest, after ++ ['\n'] = '\n' :: rest := by
    rcases hafter with rfl | hhead
    · exact ⟨[], rfl⟩
    · obtain ⟨tail, rfl⟩ := List.head?_eq_some_iff.1 hhead
      exact ⟨tail ++ ['\n'], rfl⟩
  have hblank : Text.Blanks ending ∧ '\n' ∉ ending := by
    rcases hending with rfl | rfl <;> decide
  have hlines (text : List Char) (htext : '\n' ∉ text) :
      Line.ofSource (before ++ (text ++ (ending ++ after)) ++ ['\n']) =
        Line.ofTexts 0 (Text.lines before) ++
          Line.ofText ((Text.lines before).length + 1) text ::
            Line.ofTexts ((Text.lines before).length + 1) (Text.lines rest) := by
    have hmem : '\n' ∉ text ++ ending := by simp [htext, hblank.2]
    rw [List.append_assoc, List.append_assoc, List.append_assoc, hrest, ← List.append_assoc text,
      Line.ofSource_middle hbefore hmem, Line.ofText_append_right hblank.1]
  rw [← Line.assemble_newline, hlines line hline, assemble_iff_adds] at hp
  rw [← Line.assemble_newline, hlines line' hline', assemble_iff_adds]
  have hsame (lines : List Line) : List.Forall₂ Line.Alike lines lines :=
    List.forall₂_same.2 fun l _ => .refl l
  exact ⟨hp.1.of_alike (List.rel_append (hsame _) (.cons (h.alike _) (hsame _))), hp.2⟩

end Source

namespace Program

open Source

/-- Edits to the spelling of its lines do not change the program that a source stands for, the
numbers of its lines included. -/
theorem spelling_does_not_matter {source source' : String} {p : Program}
    (h : ofSource source = .ok p)
    (hedits : Relation.ReflTransGen Edit source.toList source'.toList) :
    ofSource source' = .ok p := by
  have hsteps (cs : List Char) (hcs : Relation.ReflTransGen Edit source.toList cs) :
      assemble (Line.ofSource cs) = .ok p := by
    induction hcs with
    | refl => exact h
    | tail _ hedit ih => exact assemble_of_edit hedit ih
  exact hsteps _ hedits

/-- A short source in a plain spelling. -/
def plainSpelling : String := "go: mov eax, 0x1f\njmp go"

/-- The program that it stands for. -/
def plainSpellingProgram : Program where
  instructions :=
    #[⟨.mov, [.register ⟨.rax, .dword⟩, .immediate 31], 1⟩, ⟨.jmp, [.label "go" 0], 2⟩]
  labels := Labels.empty.insert "go" 0

/-- The same source with other blanks, a comment, and letters in upper case. -/
def otherSpelling : String := "go:\tMOV EAX , 0X1F; again\r\njmp go"

theorem otherSpelling_is_read_alike :
    ofSource plainSpelling = .ok plainSpellingProgram ∧
      ofSource otherSpelling = .ok plainSpellingProgram := by
  have hplain : ofSource plainSpelling = .ok plainSpellingProgram := by decide
  have hfirst {line line' : List Char} (h : LineEdit line line') (hline : '\n' ∉ line)
      (hline' : '\n' ∉ line') :
      Edit (line ++ "\njmp go".toList) (line' ++ "\njmp go".toList) :=
    .line (.inl rfl) (.inr rfl) hline hline' (.inl rfl) h
  have hnil : LabelRun [] := .blanks Text.blanks_nil
  have hgo : LabelRun "go:\t".toList :=
    @LabelRun.label [] "go".toList ['\t'] [] (by decide) (by decide) (by decide) (by decide)
      hnil
  have hlabel : LineEdit "go: mov eax, 0x1f".toList "go:\tmov eax, 0x1f".toList :=
    @LineEdit.labelGap [] "go".toList [' '] ['\t'] "mov eax, 0x1f".toList hnil (by decide)
      (by decide) (by decide) (by decide) (by decide)
  have hword : ∀ c ∈ some ' ', Text.isBlank c = true ∨ isCommentMark c = true := by
    rintro c ⟨⟩
    exact Or.inl rfl
  have hmnemonic : LineEdit "go:\tmov eax, 0x1f".toList "go:\tMOV eax, 0x1f".toList :=
    @LineEdit.mnemonicCase "go:\t".toList "mov".toList "MOV".toList " eax, 0x1f".toList .mov
      hgo (by decide) (by decide) hword
  have hoperands : LineEdit "go:\tMOV eax, 0x1f".toList "go:\tMOV EAX, 0X1F".toList :=
    @LineEdit.operandCase "go:\t".toList "MOV".toList [' '] "eax, 0x1f".toList
      "EAX, 0X1F".toList .mov [] hgo (by decide) (by decide) (by decide) (by decide) (by decide)
  have hcomma : LineEdit "go:\tMOV EAX, 0X1F".toList "go:\tMOV EAX , 0X1F".toList :=
    @LineEdit.comma "go:\t".toList "MOV".toList [' '] "EAX".toList [' '] [] .mov
      " 0X1F".toList hgo (by decide) (by decide) (by decide) (by decide) (by decide) (by decide)
  have hcomment : LineEdit "go:\tMOV EAX , 0X1F".toList
      "go:\tMOV EAX , 0X1F; again".toList :=
    @LineEdit.comment "go:\tMOV EAX , 0X1F".toList ';' " again".toList (by decide)
      (by decide)
  have hreturn : LineEdit "go:\tMOV EAX , 0X1F; again".toList
      "go:\tMOV EAX , 0X1F; again\r".toList := .carriageReturn _
  have hedits : Relation.ReflTransGen Edit plainSpelling.toList otherSpelling.toList :=
    .head (hfirst hlabel (by decide) (by decide)) <|
    .head (hfirst hmnemonic (by decide) (by decide)) <|
    .head (hfirst hoperands (by decide) (by decide)) <|
    .head (hfirst hcomma (by decide) (by decide)) <|
    .head (hfirst hcomment (by decide) (by decide)) <|
    .single (hfirst hreturn (by decide) (by decide))
  exact ⟨hplain, spelling_does_not_matter hplain hedits⟩

end Program

end X64
