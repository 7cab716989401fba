import X64.Proofs.Expectation
import X64.Proofs.Source.Insertion

/-!
# Status markers below comments

A status marker is meant to be read wherever only comments stand in front of it. The assembler and
the header do not agree on what a comment is: a line that begins with `#` is one for the assembler,
but it ends the header. `isComment_iff` says that they agree on all other lines.

So a marker is heeded if no line in front of it begins with `#`. Otherwise the source is read as if
it ended in front of the first such line, and the marker is hidden. These are the two parts of
`status_marker_is_read_or_hidden`.
-/

namespace X64

namespace Source

/-- The line holds nothing for the assembler: it is blank, or all of it is a comment. -/
def IsComment (text : List Char) : Prop :=
  ∀ number, (Line.ofText number text).labels = [] ∧ (Line.ofText number text).statement = none

/-- A line that is no comment has a word, and this is a label or begins a statement. -/
theorem IsComment.blanks {text : List Char} (h : IsComment text) :
    Text.Blanks (stripComment text) := by
  apply List.dropWhile_eq_nil_iff.1
  show Text.trimStart (stripComment text) = []
  cases htrim : Text.trimStart (stripComment text) with
  | nil => rfl
  | cons c cs =>
    obtain ⟨gap, ws, hwords⟩ := exists_words_of_trimStart htrim
    obtain ⟨hlabels, hstatement⟩ := h 0
    generalize (⟨(c :: cs).takeWhile fun d => !Text.isBlank d, gap⟩ : Text.Word) = w at hwords
    rw [Line.ofText, hwords] at hlabels hstatement
    cases hlabel : definedLabel? w with
    | some label => simp [hlabel] at hlabels
    | none =>
      simp only [List.dropWhile_cons, hlabel, Option.isSome_none, Bool.false_eq_true, if_false,
        Statement.ofWords?] at hstatement
      split at hstatement
      · cases hstatement
      · cases hstatement

end Source

namespace Expectation

/-! ## Comments -/

/-- A line whose comment begins with `#`. -/
def HashLine (line : List Char) : Prop := (Text.trim line).head? = some '#'

instance (line : List Char) : Decidable (HashLine line) := inferInstanceAs (Decidable (_ = _))

theorem head?_trim {pad rest : List Char} {mark : Char} (hpad : Text.Blanks pad)
    (hmark : Text.isBlank mark = false) :
    (Text.trim (pad ++ mark :: rest)).head? = some mark := by
  have hhead : ∀ c ∈ (mark :: rest).head?, Text.isBlank c = false := by
    intro c hc
    obtain rfl : mark = c := Option.some.inj hc
    exact hmark
  rw [Text.trim_append_left hpad, Text.trim, Text.trimStart_of_head hhead, Text.trimEnd_cons, hmark,
    Bool.and_false]
  rfl

theorem not_headerLine_of_hashLine {line : List Char} (h : HashLine line) : ¬HeaderLine line := by
  intro hheader
  unfold HashLine at h
  obtain hnil | hsemicolon := hheader
  · simp [hnil] at h
  · simp [h] at hsemicolon

/-- The lines without anything for the assembler are those that may stand in a header, and those
that begin with `#`. -/
theorem isComment_iff {line : List Char} :
    Source.IsComment line ↔ HeaderLine line ∨ HashLine line := by
  constructor
  · intro h
    have hblanks := h.blanks
    obtain heq | ⟨mark, rest, hmark, heq⟩ := Source.eq_stripCommentFrom_append .outside line
    · left
      left
      rw [heq]
      exact Text.trim_of_blanks hblanks
    · obtain hhash | hsemicolon : mark = '#' ∨ mark = ';' := by
        simpa [Source.isCommentMark] using hmark
      · right
        rw [HashLine, heq, hhash]
        exact head?_trim hblanks (by decide)
      · left
        right
        rw [heq, hsemicolon]
        exact head?_trim hblanks (by decide)
  · intro h number
    have hstrip : Text.trimStart (Source.stripComment line) = [] := by
      apply List.dropWhile_eq_nil_iff.2
      obtain ⟨pad, after, hline, hpad, hafter, -⟩ := Text.exists_trim line
      -- A mark in front of everything else begins a comment.
      have hcomment {mark : Char} (hmark : Source.isCommentMark mark = true)
          (hhead : (Text.trim line).head? = some mark) :
          Text.Blanks (Source.stripComment line) := by
        obtain ⟨rest, hrest⟩ := List.head?_eq_some_iff.1 hhead
        rw [hrest, List.cons_append] at hline
        rw [hline, Source.stripComment_comment hpad hmark]
        exact hpad
      obtain (hnil | hsemicolon) | hhash := h
      · have hblanks := Text.blanks_of_trim hnil
        rw [Source.stripComment_of_forall fun c hc =>
          Source.isCommentMark_of_isBlank (hblanks c hc)]
        exact hblanks
      · exact hcomment (by decide) hsemicolon
      · exact hcomment (by decide) hhash
    rw [Source.Line.ofText_of_trimStart_eq_nil hstrip]
    exact ⟨rfl, rfl⟩

/-! ## Status markers -/

/-- The line is a status marker that declares `n`: semicolons, the keyword and the number, with
blanks in between. -/
def IsStatusMarker (line : List Char) (n : UInt64) : Prop :=
  ∃ semicolons gap pad numeral, semicolons ≠ [] ∧ (∀ c ∈ semicolons, c = ';') ∧
    Text.trim line = semicolons ++ (gap ++ (statusKeyword ++ (pad ++ numeral))) ∧
    Text.Blanks gap ∧ Text.Blanks pad ∧ Text.IsWord 10 numeral n

/-- The source is rejected, or its status is `n`. -/
def Heeds (source : String) (n : UInt64) : Prop :=
  (∃ error, ofSource source = .error error) ∨
    ∃ e, ofSource source = .ok e ∧ e.status = some n

section

variable {line : List Char} {n : UInt64}

theorem IsStatusMarker.headerLine (h : IsStatusMarker line n) : HeaderLine line := by
  obtain ⟨semicolons, gap, pad, numeral, hne, hall, htrim, -⟩ := h
  obtain ⟨c, rest, rfl⟩ := List.exists_cons_of_ne_nil hne
  right
  rw [htrim, hall c List.mem_cons_self]
  rfl

theorem commentText_of_semicolons {semicolons gap text : List Char}
    (htrim : Text.trim line = semicolons ++ (gap ++ text)) (hall : ∀ c ∈ semicolons, c = ';')
    (hgap : Text.Blanks gap) (htext : Text.Tight text) (hhead : ∀ c ∈ text.head?, c ≠ ';') :
    commentText line = text := by
  have hrest : ∀ c ∈ (gap ++ text).head?, c ≠ ';' := by
    cases gap with
    | nil => exact hhead
    | cons d gap =>
      intro c hc
      obtain rfl : d = c := Option.some.inj hc
      intro heq
      subst heq
      exact absurd (hgap ';' List.mem_cons_self) (by decide)
  have hdrop : (gap ++ text).dropWhile (· == ';') = gap ++ text := by
    cases hcons : gap ++ text with
    | nil => rfl
    | cons c cs =>
      rw [hcons] at hrest
      exact List.dropWhile_cons_of_neg (by simpa using hrest c rfl)
  rw [commentText, htrim, List.dropWhile_append_of_pos fun c hc => by simp [hall c hc], hdrop,
    Text.trim_append_left hgap, Text.trim_of_tight htext]

/-- The number of a status marker stands behind its keyword. -/
theorem IsStatusMarker.exists_value (h : IsStatusMarker line n) :
    ∃ v, value? statusKeyword line = some v ∧ Text.IsWord 10 (Text.trim v) n := by
  obtain ⟨semicolons, gap, pad, numeral, -, hall, htrim, hgap, hpad, hn⟩ := h
  have hnumeral : Text.Tight numeral := .of_forall hn.isBlank_of_mem
  have hkeyword : Text.Tight statusKeyword := by
    apply Text.Tight.of_forall
    have hall : statusKeyword.all (fun c => !Text.isBlank c) = true := by decide
    simpa using hall
  have htext : Text.Tight (statusKeyword ++ (pad ++ numeral)) :=
    hkeyword.append hnumeral (by decide) hn.forall_mem.1 pad
  have hhead : ∀ c ∈ (statusKeyword ++ (pad ++ numeral)).head?, c ≠ ';' := by
    intro c hc
    obtain rfl : 'E' = c := Option.some.inj hc
    decide
  refine ⟨pad ++ numeral, ?_, ?_⟩
  · rw [value?_eq_some_iff, commentText_of_semicolons htrim hall hgap htext hhead]
  · rwa [Text.trim_append_left hpad, Text.trim_of_tight hnumeral]

/-- A header without errors has the status of each of its markers. -/
theorem Declares.status_eq {header : List (List Char)} {e : Expectation} (h : Declares header e)
    (hline : line ∈ header) (hmarker : IsStatusMarker line n) : e.status = some n := by
  obtain ⟨v, hv, hn⟩ := hmarker.exists_value
  have hmem : v ∈ values statusKeyword header := List.mem_filterMap.2 ⟨line, hline, hv⟩
  obtain ⟨hnil, -⟩ | ⟨w, m, hvalues, hm, hstatus⟩ := h.status
  · rw [hnil] at hmem
    cases hmem
  · rw [hvalues, List.mem_singleton] at hmem
    subst hmem
    rw [hstatus, hm.unique (by decide) hn]

end

section

variable {source : String} {front back : List (List Char)} {line : List Char} {n : UInt64}

/-- A marker is heeded if the lines in front of it belong to the header. -/
theorem heeds_of_headerLines (hlines : Text.lines source.toList = front ++ line :: back)
    (hmarker : IsStatusMarker line n) (hfront : ∀ l ∈ front, HeaderLine l) : Heeds source n := by
  obtain ⟨more, rest, hmore⟩ := exists_isHeader back
  have hheader : IsHeader (Text.lines source.toList) (front ++ line :: more) rest := by
    refine ⟨by rw [hlines, hmore.split]; simp, ?_, hmore.rest⟩
    exact List.forall_mem_append.2
      ⟨hfront, List.forall_mem_cons.2 ⟨hmarker.headerLine, hmore.header⟩⟩
  rw [Heeds, ofSource_eq_ofHeader hheader]
  cases hread : ofHeader (front ++ line :: more) with
  | error error => exact Or.inl ⟨error, rfl⟩
  | ok e =>
    have hdeclares := (ofHeader_eq_ok_iff hheader.header).1 hread
    exact Or.inr ⟨e, rfl, hdeclares.status_eq (by simp) hmarker⟩

/-- A line that is no header line ends the source, as far as expectations go. -/
theorem ofSource_of_not_headerLine (hlines : Text.lines source.toList = front ++ line :: back)
    (hfront : ∀ l ∈ front, HeaderLine l) (hline : ¬HeaderLine line) :
    ofSource source = ofHeader front ∧
      ofSource source = ofSource (String.ofList (front.flatMap fun l => l ++ ['\n'])) := by
  have hheader : IsHeader (Text.lines source.toList) front (line :: back) := by
    refine ⟨hlines, hfront, ?_⟩
    intro l hl
    obtain rfl : line = l := Option.some.inj hl
    exact hline
  have hnewline : ∀ l ∈ front, '\n' ∉ l := by
    intro l hl
    apply Text.newline_not_mem_lines source.toList
    rw [hlines]
    exact List.mem_append_left _ hl
  have hcut : IsHeader (Text.lines (String.ofList (front.flatMap fun l => l ++ ['\n'])).toList)
      front [] := by
    rw [String.toList_ofList, Text.lines_flatMap hnewline]
    exact ⟨(List.append_nil front).symm, hfront, by simp⟩
  exact ⟨ofSource_eq_ofHeader hheader,
    (ofSource_eq_ofHeader hheader).trans (ofSource_eq_ofHeader hcut).symm⟩

/-- A header without a status marker has no status, and no errors. -/
theorem exists_ofHeader_of_values (hfront : ∀ l ∈ front, HeaderLine l)
    (hvalues : values statusKeyword front = []) :
    ∃ e, ofHeader front = .ok e ∧ e.status = none := by
  obtain ⟨e, he⟩ : ∃ e, Declares front e := by
    rw [exists_declares_iff_values, hvalues]
    simp
  have hstatus := he.status
  rw [hvalues, isStatus_nil_iff] at hstatus
  exact ⟨e, (ofHeader_eq_ok_iff hfront).2 he, hstatus⟩

end

/-- A status marker has nothing but comments in front of it. If none of these begins with `#`, the
marker is heeded. Otherwise the first that does hides it: the source is read as if it ended there,
and without a status if no other marker declares one. -/
theorem status_marker_is_read_or_hidden {source : String} {front back : List (List Char)}
    {line : List Char} {n : UInt64} (hlines : Text.lines source.toList = front ++ line :: back)
    (hmarker : IsStatusMarker line n) (hfront : ∀ l ∈ front, Source.IsComment l) :
    ((∀ l ∈ front, ¬HashLine l) → Heeds source n) ∧
      ∀ above hash below, front = above ++ hash :: below → (∀ l ∈ above, ¬HashLine l) →
        HashLine hash →
          ofSource source = ofSource (String.ofList (above.flatMap fun l => l ++ ['\n'])) ∧
            (values statusKeyword above = [] →
              ∃ e, ofSource source = .ok e ∧ e.status = none) := by
  have hheader : ∀ l ∈ front, ¬HashLine l → HeaderLine l := fun l hl hhash =>
    (isComment_iff.1 (hfront l hl)).resolve_right hhash
  constructor
  · intro hhash
    exact heeds_of_headerLines hlines hmarker fun l hl => hheader l hl (hhash l hl)
  · intro above hash below hsplit habove hhash
    have hlines' : Text.lines source.toList = above ++ hash :: (below ++ line :: back) := by
      rw [hlines, hsplit, List.append_assoc, List.cons_append]
    have haboveHeader : ∀ l ∈ above, HeaderLine l := fun l hl =>
      hheader l (hsplit ▸ List.mem_append_left _ hl) (habove l hl)
    obtain ⟨hread, hcut⟩ :=
      ofSource_of_not_headerLine hlines' haboveHeader (not_headerLine_of_hashLine hhash)
    refine ⟨hcut, fun hvalues => ?_⟩
    rw [hread]
    exact exists_ofHeader_of_values haboveHeader hvalues

/-- A status marker below a comment and a blank line. -/
def markerBelowSemicolon : String := "; note\n\n;;\tEXPECT_STATUS: 13"

/-- A status marker below a comment that begins with `#`. -/
def markerBelowHash : String := "# note\n;; EXPECT_STATUS: 1"

theorem isStatusMarker_one : IsStatusMarker ";; EXPECT_STATUS: 1".toList 1 := by
  refine ⟨[';', ';'], [' '], [' '], ['1'], by decide, by simp, by decide, by decide, by decide, ?_⟩
  exact (Text.word?_eq_some_iff_isWord (by decide)).1 (by decide)

theorem markers_are_read_or_hidden :
    Heeds markerBelowSemicolon 13 ∧
      ∃ e, ofSource markerBelowHash = .ok e ∧ e.status = none := by
  have hmarker : IsStatusMarker ";;\tEXPECT_STATUS: 13".toList 13 := by
    refine ⟨[';', ';'], ['\t'], [' '], ['1', '3'], by decide, by simp, by decide, by decide,
      by decide, ?_⟩
    exact (Text.word?_eq_some_iff_isWord (by decide)).1 (by decide)
  have hcomment : ∀ l ∈ ["; note".toList, []], Source.IsComment l := by
    refine List.forall_mem_cons.2 ⟨isComment_iff.2 (Or.inl (Or.inr (by decide))), ?_⟩
    exact List.forall_mem_singleton.2 (isComment_iff.2 (Or.inl (Or.inl rfl)))
  have hhash : HashLine "# note".toList := by decide
  constructor
  · have hlines : Text.lines markerBelowSemicolon.toList =
        ["; note".toList, []] ++ ";;\tEXPECT_STATUS: 13".toList :: [] := by decide
    exact (status_marker_is_read_or_hidden hlines hmarker hcomment).1 (by decide)
  · have hlines : Text.lines markerBelowHash.toList =
        ["# note".toList] ++ ";; EXPECT_STATUS: 1".toList :: [] := by decide
    have hhidden := (status_marker_is_read_or_hidden hlines isStatusMarker_one
      (List.forall_mem_singleton.2 (isComment_iff.2 (Or.inr hhash)))).2
    exact (hhidden [] _ [] rfl (by simp) hhash).2 rfl

/-- The marker is not heeded, though only a comment stands in front of it. -/
theorem marker_below_hash_is_hidden :
    Text.lines markerBelowHash.toList = ["# note".toList, ";; EXPECT_STATUS: 1".toList] ∧
      Source.IsComment "# note".toList ∧ IsStatusMarker ";; EXPECT_STATUS: 1".toList 1 ∧
      ¬Heeds markerBelowHash 1 := by
  have hread : ofSource markerBelowHash = .ok {} := by decide
  refine ⟨by decide, fun number => ⟨rfl, rfl⟩, isStatusMarker_one, ?_⟩
  rw [Heeds, hread]
  simp

end Expectation

end X64
