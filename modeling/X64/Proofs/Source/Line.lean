import X64.Proofs.Text.Character
import X64.Proofs.Text.Pieces
import X64.Source.Line

/-!
# Reading lines

A line is read from its front. A label with blanks behind it is split off (`ofText_label_append`),
and where a word of letters stands, an instruction begins whose operands are in the text behind it
(`ofText_mnemonic`). Blanks at the ends of a line do not count.

Printed lines are read back by these rules: a line with one label (`ofText_label`), and a line with
one instruction (`ofText_instruction`).

A scan for comments goes through a text piece by piece (`stripCommentFrom_append`), unless it has
found one (`stripCommentFrom_append_of_ne`). A text without a comment mark has no comment
(`stripComment_of_forall`).
-/

namespace X64.Source

/-! ## Characters of names -/

/-- The codes of the characters of a label name. -/
theorem toNat_of_isLabelRest {c : Char} (h : isLabelRest c = true) :
    c.toNat = 36 ∨ c.toNat = 46 ∨ 48 ≤ c.toNat ∧ c.toNat ≤ 57 ∨ 65 ≤ c.toNat ∧ c.toNat ≤ 90 ∨
      c.toNat = 95 ∨ 97 ≤ c.toNat ∧ c.toNat ≤ 122 := by
  simp only [isLabelRest, isLabelStart, Bool.or_eq_true, beq_iff_eq, Text.isAlpha_iff,
    Text.isUpper_iff_toNat, Text.isLower_iff_toNat, Char.isDigit_iff_toNat] at h
  rcases h with ((((hupper | hlower) | rfl) | rfl) | rfl) | ⟨hlo, hhi⟩
  · omega
  · omega
  · decide
  · decide
  · decide
  · change 48 ≤ c.toNat at hlo
    change c.toNat ≤ 57 at hhi
    omega

theorem isBlank_of_isLabelRest {c : Char} (h : isLabelRest c = true) :
    Text.isBlank c = false := by
  have hcode := toNat_of_isLabelRest h
  simp only [Text.isBlank, Bool.or_eq_false_iff, Bool.and_eq_false_iff,
    decide_eq_false_iff_not, beq_eq_false_iff_ne]
  omega

theorem ne_of_isLabelRest {c d : Char} (h : isLabelRest c = true) (hd : isLabelRest d = false) :
    c ≠ d := by
  intro heq
  subst heq
  rw [h] at hd
  exact absurd hd (by decide)

theorem isCommentMark_of_isLabelRest {c : Char} (h : isLabelRest c = true) :
    isCommentMark c = false := by
  have hhash : c ≠ '#' := ne_of_isLabelRest h (by decide)
  have hsemicolon : c ≠ ';' := ne_of_isLabelRest h (by decide)
  simp [isCommentMark, hhash, hsemicolon]

theorem isCommentMark_of_isBlank {c : Char} (h : Text.isBlank c = true) :
    isCommentMark c = false := by
  have hhash : c ≠ '#' := by
    intro heq
    subst heq
    exact absurd h (by decide)
  have hsemicolon : c ≠ ';' := by
    intro heq
    subst heq
    exact absurd h (by decide)
  simp [isCommentMark, hhash, hsemicolon]

theorem isLabelRest_of_isAlpha {c : Char} (h : c.isAlpha = true) : isLabelRest c = true := by
  simp [isLabelRest, isLabelStart, h]

theorem isLabelName_cons {c : Char} {cs : List Char} (h : isLabelName (c :: cs) = true) :
    isLabelStart c = true ∧ ∀ d ∈ c :: cs, isLabelRest d = true := by
  simp only [isLabelName, Bool.and_eq_true, List.all_eq_true] at h
  refine ⟨h.1, fun d hd => ?_⟩
  rcases List.mem_cons.1 hd with rfl | hd
  · simp [isLabelRest, h.1]
  · exact h.2 d hd

theorem isLabelRest_of_isLabelName {name : List Char} (h : isLabelName name = true) :
    name ≠ [] ∧ ∀ d ∈ name, isLabelRest d = true := by
  cases name with
  | nil => exact absurd h (by decide)
  | cons c cs => exact ⟨by simp, (isLabelName_cons h).2⟩

/-! ## Comments -/

theorem stripCommentFrom_of_forall {cs : List Char} (h : ∀ c ∈ cs, isCommentMark c = false)
    (q : Quoting) : stripCommentFrom q cs = cs := by
  induction cs generalizing q with
  | nil => rfl
  | cons c cs ih =>
    have hc : isCommentMark c = false := h c List.mem_cons_self
    rw [stripCommentFrom, if_neg (by simp [hc]),
      ih fun d hd => h d (List.mem_cons_of_mem _ hd)]

theorem stripComment_of_forall {cs : List Char} (h : ∀ c ∈ cs, isCommentMark c = false) :
    stripComment cs = cs :=
  stripCommentFrom_of_forall h .outside

theorem stripComment_mark {mark : Char} (h : isCommentMark mark = true) (rest : List Char) :
    stripComment (mark :: rest) = [] :=
  if_pos ⟨rfl, h⟩

/-- What is behind a text without a comment is scanned from where that text ends. -/
theorem stripCommentFrom_append {q : Quoting} {cs : List Char} (h : stripCommentFrom q cs = cs)
    (rest : List Char) :
    stripCommentFrom q (cs ++ rest) = cs ++ stripCommentFrom (cs.foldl Quoting.next q) rest := by
  induction cs generalizing q with
  | nil => rfl
  | cons c cs ih =>
    rw [stripCommentFrom] at h
    split at h
    · cases h
    · next hmark =>
      rw [List.cons_append, stripCommentFrom, if_neg hmark, ih (List.cons.inj h).2]
      rfl

/-- What is behind a comment belongs to it. -/
theorem stripCommentFrom_append_of_ne {q : Quoting} {cs : List Char}
    (h : stripCommentFrom q cs ≠ cs) (rest : List Char) :
    stripCommentFrom q (cs ++ rest) = stripCommentFrom q cs := by
  induction cs generalizing q with
  | nil => exact absurd rfl h
  | cons c cs ih =>
    rw [List.cons_append, stripCommentFrom, stripCommentFrom]
    rw [stripCommentFrom] at h
    split
    · rfl
    · next hmark =>
      rw [if_neg hmark] at h
      rw [ih fun heq => h (congrArg (c :: ·) heq)]

/-- What is removed from a line is a comment. -/
theorem eq_stripCommentFrom_append (q : Quoting) (cs : List Char) :
    cs = stripCommentFrom q cs ∨
      ∃ mark rest, isCommentMark mark = true ∧ cs = stripCommentFrom q cs ++ mark :: rest := by
  induction cs generalizing q with
  | nil => exact Or.inl rfl
  | cons c cs ih =>
    rw [stripCommentFrom]
    split
    · next hmark => exact Or.inr ⟨c, cs, hmark.2, rfl⟩
    · rcases ih (q.next c) with h | ⟨mark, rest, hmark, h⟩
      · exact Or.inl (congrArg (c :: ·) h)
      · exact Or.inr ⟨mark, rest, hmark, congrArg (c :: ·) h⟩

/-- A character that opens no string and starts no comment. -/
def IsPlain (c : Char) : Prop := c ≠ '"' ∧ isCommentMark c = false

theorem IsPlain.of_isBlank {c : Char} (h : Text.isBlank c = true) : IsPlain c := by
  refine ⟨?_, isCommentMark_of_isBlank h⟩
  rintro rfl
  exact absurd h (by decide)

theorem IsPlain.of_isLabelRest {c : Char} (h : isLabelRest c = true) : IsPlain c :=
  ⟨ne_of_isLabelRest h (by decide), isCommentMark_of_isLabelRest h⟩

/-- Plain text leaves the scan outside of strings and comments. -/
theorem stripComment_append {cs : List Char} (h : ∀ c ∈ cs, IsPlain c) (rest : List Char) :
    stripComment (cs ++ rest) = cs ++ stripComment rest := by
  have hscan : cs.foldl Quoting.next .outside = .outside := by
    induction cs with
    | nil => rfl
    | cons c cs ih =>
      obtain ⟨hc, hcs⟩ := List.forall_mem_cons.1 h
      rw [List.foldl_cons, Quoting.next, if_neg hc.1, ih hcs]
  rw [stripComment, stripCommentFrom_append (stripComment_of_forall fun c hc => (h c hc).2), hscan]
  rfl

/-! ## Lines -/

theorem definedLabel?_of_isLabelName {name : List Char} (h : isLabelName name = true)
    (gap : List Char) : definedLabel? ⟨name ++ [':'], gap⟩ = some name := by
  rw [definedLabel?, if_pos (by simp [h]), List.dropLast_concat]

theorem definedLabel?_of_letters {name : List Char} (h : ∀ c ∈ name, c.isAlpha = true)
    (gap : List Char) : definedLabel? ⟨name, gap⟩ = none := by
  refine if_neg fun hlabel => ?_
  have hcolon : (':' : Char).isAlpha = true := h ':' (List.mem_of_getLast? hlabel.1)
  exact absurd hcolon (by decide)

theorem ofWords?_of_letters {name : List Char} (h : ∀ c ∈ name, c.isAlpha = true)
    (hne : name ≠ []) (gap : List Char) {ws : List Text.Word} {rest : List Char}
    (hspell : Text.spell ws = rest) :
    Statement.ofWords? (⟨name, gap⟩ :: ws) = some (.instruction name (Text.items rest)) := by
  subst hspell
  cases name with
  | nil => exact absurd rfl hne
  | cons c cs =>
    have hc : c ≠ '.' := by
      intro heq
      subst heq
      exact absurd (h '.' List.mem_cons_self) (by decide)
    rw [Statement.ofWords?]
    split
    · next heq => exact absurd (List.cons.inj heq).1 hc
    · rfl

namespace Line

/-- The characters of a word that defines a label. -/
theorem forall_mem_label {name : List Char} (h : isLabelName name = true) :
    ∀ c ∈ name ++ [':'], Text.isBlank c = false ∧ IsPlain c := by
  obtain ⟨-, hletters⟩ := isLabelRest_of_isLabelName h
  refine List.forall_mem_append.2 ⟨fun c hc => ?_, fun c hc => ?_⟩
  · exact ⟨isBlank_of_isLabelRest (hletters c hc), .of_isLabelRest (hletters c hc)⟩
  · obtain rfl : c = ':' := by simpa using hc
    exact ⟨rfl, by decide, rfl⟩

/-- A line that defines one label. -/
theorem ofText_label {name : List Char} (h : isLabelName name = true) (number : Nat) :
    ofText number (name ++ [':']) = ⟨number, [name], none⟩ := by
  have hblank : ∀ c ∈ name ++ [':'], Text.isBlank c = false := fun c hc =>
    (forall_mem_label h c hc).1
  rw [ofText, stripComment_of_forall fun c hc => (forall_mem_label h c hc).2.2,
    Text.trim_of_tight (Text.Tight.of_forall hblank), Text.words_of_text hblank (by simp)]
  simp [definedLabel?_of_isLabelName h, Statement.ofWords?]

/-- Blanks at the front of a line do not count. -/
theorem ofText_append_left {pad : List Char} (hpad : Text.Blanks pad) (number : Nat)
    (cs : List Char) : ofText number (pad ++ cs) = ofText number cs := by
  rw [ofText, ofText, stripComment_append fun c hc => .of_isBlank (hpad c hc),
    Text.trim_append_left hpad]

/-- Blanks at the end of a line do not count, whether they belong to a comment or not. -/
theorem ofText_append_right {pad : List Char} (hpad : Text.Blanks pad) (number : Nat)
    (cs : List Char) : ofText number (cs ++ pad) = ofText number cs := by
  rw [ofText, ofText]
  by_cases hcode : stripComment cs = cs
  · have hblank : ∀ c ∈ pad, isCommentMark c = false := fun c hc =>
      isCommentMark_of_isBlank (hpad c hc)
    rw [stripComment, stripCommentFrom_append hcode, stripCommentFrom_of_forall hblank,
      Text.trim_append_right hpad, hcode]
  · rw [stripComment, stripCommentFrom_append_of_ne hcode]
    rfl

/-- A label with blanks behind it is split off the front of a line. -/
theorem ofText_label_append {name gap : List Char} (hname : isLabelName name = true)
    (hgap : Text.Blanks gap) (hne : gap ≠ []) (number : Nat) (rest : List Char) :
    ofText number (name ++ ':' :: (gap ++ rest)) =
      { ofText number rest with labels := name :: (ofText number rest).labels } := by
  have hstrip : stripComment (name ++ ':' :: (gap ++ rest)) =
      (name ++ [':']) ++ (gap ++ stripComment rest) := by
    rw [← stripComment_append fun c hc => .of_isBlank (hgap c hc),
      ← stripComment_append fun c hc => (forall_mem_label hname c hc).2, List.append_assoc]
    rfl
  have hhead : ∀ c ∈ (gap ++ stripComment rest).head?, Text.isBlank c = true := by
    intro c hc
    rw [List.head?_append_of_ne_nil _ hne] at hc
    exact hgap c (List.mem_of_mem_head? hc)
  obtain ⟨gap', hwords⟩ := Text.exists_words_trim
    (fun c hc => (forall_mem_label hname c hc).1) (by simp) hhead
  rw [Text.trim_append_left hgap] at hwords
  rw [ofText, hstrip]
  simp only [hwords, List.takeWhile_cons, List.dropWhile_cons,
    definedLabel?_of_isLabelName hname, Option.isSome_some, if_true]
  rw [List.filterMap_cons_some (definedLabel?_of_isLabelName hname gap')]
  rfl

/-- An instruction begins with a word of letters, which is its mnemonic. -/
theorem ofText_mnemonic {name rest : List Char} (hname : ∀ c ∈ name, c.isAlpha = true)
    (hne : name ≠ [])
    (hrest : ∀ c ∈ rest.head?, Text.isBlank c = true ∨ isCommentMark c = true) (number : Nat) :
    ofText number (name ++ rest) =
      ⟨number, [], some (.instruction name (Text.items (stripComment rest)))⟩ := by
  have hletters : ∀ c ∈ name, isLabelRest c = true := fun c hc =>
    isLabelRest_of_isAlpha (hname c hc)
  have hhead : ∀ c ∈ (stripComment rest).head?, Text.isBlank c = true := by
    cases rest with
    | nil => exact fun c hc => nomatch hc
    | cons d rest =>
      rw [stripComment, stripCommentFrom]
      split
      · exact fun c hc => nomatch hc
      · next hmark =>
        intro c hc
        obtain rfl : d = c := Option.some.inj hc
        exact (hrest d rfl).resolve_right fun hd => hmark ⟨rfl, hd⟩
  obtain ⟨gap, hwords⟩ := Text.exists_words_trim
    (fun c hc => isBlank_of_isLabelRest (hletters c hc)) hne hhead
  have hlabel : (definedLabel? ⟨name, gap⟩).isSome = false := by
    rw [definedLabel?_of_letters hname]
    rfl
  rw [ofText, stripComment_append fun c hc => .of_isLabelRest (hletters c hc), hwords]
  simp only [List.takeWhile_cons, List.dropWhile_cons, hlabel]
  rw [← Text.items_trim]
  exact congrArg (Line.mk number []) (ofWords?_of_letters hname hne gap (Text.spell_words _))

/-- A line with one instruction: a mnemonic of letters, and the text of its operands. -/
theorem ofText_instruction {pad name gap rest : List Char} (number : Nat) (hpad : Text.Blanks pad)
    (hname : ∀ c ∈ name, c.isAlpha = true) (hne : name ≠ []) (hgap : Text.Blanks gap)
    (hsep : rest = [] ∨ gap ≠ []) (hmark : ∀ c ∈ rest, isCommentMark c = false) :
    ofText number (pad ++ (name ++ (gap ++ rest))) =
      ⟨number, [], some (.instruction name (Text.items rest))⟩ := by
  have hhead : ∀ c ∈ (gap ++ rest).head?, Text.isBlank c = true ∨ isCommentMark c = true := by
    intro c hc
    left
    rcases hsep with rfl | hgapNe
    · rw [List.append_nil] at hc
      exact hgap c (List.mem_of_mem_head? hc)
    · rw [List.head?_append_of_ne_nil _ hgapNe] at hc
      exact hgap c (List.mem_of_mem_head? hc)
  rw [ofText_append_left hpad, ofText_mnemonic hname hne hhead,
    stripComment_append fun c hc => .of_isBlank (hgap c hc), Text.items_append_left hgap,
    stripComment_of_forall hmark]

end Line

end X64.Source
