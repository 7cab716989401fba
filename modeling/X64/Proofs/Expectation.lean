import X64.Expectation
import X64.Proofs.Except
import X64.Proofs.Text.Numeral
import Mathlib.Data.List.Induction

/-!
# What a header declares

The header of a source is described without the reader. `IsHeader` cuts it off the lines. A marker
is a line whose text, behind its semicolons, is a keyword and a value (`value?_eq_some_iff`), and
`values` lists what the markers of a header say. `Declares` is the expectation that they add up to,
and `FirstOffence` is the error of the first line that declares a status again or declares none.

`ofHeader` reads the lines of a header alone. It succeeds as `Declares` says (`ofHeader_eq_ok_iff`)
and fails as `FirstOffence` says (`ofHeader_eq_error_iff`), by induction from the last line, since
what a line means depends on the lines in front of it.
-/

namespace X64.Expectation

/-! ## Headers -/

/-- A line that may stand in a header. -/
def HeaderLine (line : List Char) : Prop :=
  Text.trim line = [] ∨ (Text.trim line).head? = some ';'

/-- The longest run of header lines at the front of a list of lines, and the lines after it. -/
structure IsHeader (lines header rest : List (List Char)) : Prop where
  split : lines = header ++ rest
  header : ∀ line ∈ header, HeaderLine line
  rest : ∀ line ∈ rest.head?, ¬HeaderLine line

/-- The text of a line behind its semicolons. -/
def commentText (line : List Char) : List Char :=
  Text.trim ((Text.trim line).dropWhile (· == ';'))

/-- The keyword in front of an exit status. -/
def statusKeyword : List Char := "EXPECT_STATUS:".toList

/-- The keyword in front of a text that is printed. -/
def stdoutKeyword : List Char := "EXPECT_STDOUT:".toList

/-- What stands behind a keyword on a line. -/
def value? (keyword line : List Char) : Option (List Char) :=
  (commentText line).dropPrefix? keyword

/-- What stands behind a keyword, line by line. -/
def values (keyword : List Char) (header : List (List Char)) : List (List Char) :=
  header.filterMap (value? keyword)

/-! ## What the markers say -/

/-- The text that a value stands for. One space in front is left out, and each backslash with an `n`
behind it is a newline, so the value falls into pieces with newlines in between. -/
def IsOutput (value : List Char) (text : String) : Prop :=
  ∃ body pieces, (value = ' ' :: body ∨ value = body ∧ value.head? ≠ some ' ') ∧ pieces ≠ [] ∧
    (∀ piece ∈ pieces, ¬['\\', 'n'] <:+: piece) ∧ body = ['\\', 'n'].intercalate pieces ∧
    text = String.ofList (['\n'].intercalate pieces)

/-- The status that the values of status markers declare. -/
def IsStatus (vs : List (List Char)) (status : Option UInt64) : Prop :=
  vs = [] ∧ status = none ∨
    ∃ v n, vs = [v] ∧ Text.IsWord 10 (Text.trim v) n ∧ status = some n

/-- The output that the values of output markers declare: all their texts, one after the other. -/
def IsStdout (vs : List (List Char)) (stdout : Option String) : Prop :=
  vs = [] ∧ stdout = none ∨
    vs ≠ [] ∧ ∃ texts, List.Forall₂ IsOutput vs texts ∧ stdout = some (String.join texts)

/-- The expectation that a header without errors declares. -/
structure Declares (header : List (List Char)) (e : Expectation) : Prop where
  status : IsStatus (values statusKeyword header) e.status
  stdout : IsStdout (values stdoutKeyword header) e.stdout

/-- What is wrong with a line behind others. A second status marker is not looked at closer. -/
inductive Offence (before : List (List Char)) (line : List Char) : ExpectationError → Prop where
  | duplicate {v : List Char} (hmarker : value? statusKeyword line = some v)
      (hbefore : values statusKeyword before ≠ []) :
      Offence before line (.duplicateStatus (before.length + 1))
  | invalid {v : List Char} (hmarker : value? statusKeyword line = some v)
      (hbefore : values statusKeyword before = []) (hvalue : ∀ n, ¬Text.IsWord 10 (Text.trim v) n) :
      Offence before line (.invalidStatus (before.length + 1) (String.ofList (Text.trim v)))

/-- No line of a header is wrong. -/
def Clean (header : List (List Char)) : Prop :=
  ∀ before line after, header = before ++ line :: after → ∀ e, ¬Offence before line e

/-- The error of the first line of a header that is wrong. -/
def FirstOffence (header : List (List Char)) (e : ExpectationError) : Prop :=
  ∃ before line after, header = before ++ line :: after ∧ Clean before ∧ Offence before line e

/-! ## Values -/

theorem value?_eq_some_iff {keyword line v : List Char} :
    value? keyword line = some v ↔ commentText line = keyword ++ v := by
  simp [value?, List.dropPrefix?_eq_some_iff]

theorem after?_eq_dropPrefix? (start cs : List Char) : after? start cs = cs.dropPrefix? start := by
  ext rest
  rw [after?, Option.ite_none_right_eq_some, List.isPrefixOf_iff_prefix, Option.some.injEq,
    List.dropPrefix?_eq_some_iff]
  simp only [beq_iff_eq, exists_eq_right]
  constructor
  · rintro ⟨hstart, rfl⟩
    exact (List.prefix_iff_eq_append.1 hstart).symm
  · rintro rfl
    exact ⟨List.prefix_append start rest, List.drop_left⟩

/-- A line has one keyword at most. -/
theorem value?_stdout_of_status {line v : List Char} (h : value? statusKeyword line = some v) :
    value? stdoutKeyword line = none := by
  rw [Option.eq_none_iff_forall_ne_some]
  intro w hw
  rw [value?_eq_some_iff] at h hw
  have hchar : some 'A' = some 'D' := congrArg (·[9]?) (h.symm.trans hw)
  exact absurd (Option.some.inj hchar) (by decide)

theorem values_concat (keyword : List Char) (header : List (List Char)) (line : List Char) :
    values keyword (header ++ [line]) = values keyword header ++ (value? keyword line).toList := by
  rw [values, List.filterMap_append]
  cases h : value? keyword line <;> simp [values, h]

/-! ## Outputs -/

/-- A text without a pair of backslash and `n` is kept, if what follows it does not complete one. -/
theorem unescape_append {piece rest : List Char} (h : ¬['\\', 'n'] <:+: piece)
    (hrest : rest.head? ≠ some 'n') : unescape (piece ++ rest) = piece ++ unescape rest := by
  induction piece with
  | nil => rfl
  | cons c piece ih =>
    rw [List.cons_append, List.cons_append, ← ih fun hpair => h (List.infix_cons hpair)]
    refine unescape.eq_2 c _ fun cs hc hcs => ?_
    cases piece with
    | nil => exact hrest (congrArg List.head? hcs)
    | cons d piece =>
      obtain ⟨rfl, -⟩ := List.cons.inj hcs
      exact h ⟨[], piece, by rw [hc]; rfl⟩

theorem unescape_intercalate {pieces : List (List Char)} (hne : pieces ≠ [])
    (h : ∀ piece ∈ pieces, ¬['\\', 'n'] <:+: piece) :
    unescape (['\\', 'n'].intercalate pieces) = ['\n'].intercalate pieces := by
  induction pieces with
  | nil => exact absurd rfl hne
  | cons piece pieces ih =>
    have hpiece := h piece List.mem_cons_self
    cases pieces with
    | nil =>
      have hkept : unescape (piece ++ []) = piece ++ unescape [] := unescape_append hpiece (by simp)
      simpa [unescape] using hkept
    | cons second pieces =>
      have hothers := ih (by simp) fun p hp => h p (List.mem_cons_of_mem _ hp)
      rw [List.intercalate_cons_cons, List.intercalate_cons_cons, List.append_assoc,
        unescape_append hpiece (by simp), ← hothers, List.append_assoc]
      rfl

/-- Every text falls into pieces that hold no pair of backslash and `n`. -/
theorem exists_pieces (cs : List Char) :
    ∃ pieces, pieces ≠ [] ∧ (∀ piece ∈ pieces, ¬['\\', 'n'] <:+: piece) ∧
      cs = ['\\', 'n'].intercalate pieces := by
  induction cs using unescape.induct with
  | case1 cs ih =>
    obtain ⟨pieces, hne, hpieces, rfl⟩ := ih
    refine ⟨[] :: pieces, by simp, List.forall_mem_cons.2 ⟨by simp, hpieces⟩, ?_⟩
    cases pieces with
    | nil => exact absurd rfl hne
    | cons piece pieces => rw [List.intercalate_cons_cons]; rfl
  | case2 c cs hpair ih =>
    obtain ⟨pieces, hne, hpieces, rfl⟩ := ih
    cases pieces with
    | nil => exact absurd rfl hne
    | cons piece pieces =>
      obtain ⟨hpiece, hothers⟩ := List.forall_mem_cons.1 hpieces
      refine ⟨(c :: piece) :: pieces, by simp, List.forall_mem_cons.2 ⟨?_, hothers⟩,
        List.intercalate_cons_cons_left.symm⟩
      -- A pair at the very front of the longer piece is one that `unescape` would have seen.
      rw [List.infix_cons_iff]
      rintro (⟨tail, hstart⟩ | hlater)
      · obtain ⟨hc, htail⟩ := List.cons.inj hstart
        refine hpair (['\\', 'n'].intercalate (tail :: pieces)) hc.symm ?_
        rw [← htail]
        exact List.intercalate_cons_cons_left
      · exact hpiece hlater
  | case3 => exact ⟨[[]], by simp, by simp, rfl⟩

/-- The text that is printed is the one that the value stands for. -/
theorem isOutput_iff {value : List Char} {text : String} :
    IsOutput value text ↔ outputText value = text := by
  have hbody (body : List Char) :
      value = ' ' :: body ∨ value = body ∧ value.head? ≠ some ' ' ↔
        body = if value.head? = some ' ' then value.tail else value := by
    cases value with
    | nil => simp [eq_comm]
    | cons c value =>
      by_cases hc : c = ' ' <;> simp [hc, eq_comm]
  simp only [IsOutput, hbody, outputText, exists_and_left, exists_eq_left]
  generalize (if value.head? = some ' ' then value.tail else value) = body
  constructor
  · rintro ⟨pieces, hne, hpieces, rfl, rfl⟩
    rw [unescape_intercalate hne hpieces]
  · rintro rfl
    obtain ⟨pieces, hne, hpieces, rfl⟩ := exists_pieces body
    exact ⟨pieces, hne, hpieces, rfl, by rw [unescape_intercalate hne hpieces]⟩

theorem forall₂_isOutput_iff {vs : List (List Char)} {texts : List String} :
    List.Forall₂ IsOutput vs texts ↔ vs.map outputText = texts := by
  have hrel : IsOutput = fun value text => outputText value = text := by
    ext value text
    exact isOutput_iff
  rw [hrel, ← List.forall₂_map_left_iff, List.forall₂_eq_eq_eq]

/-! ## One value more -/

theorem isStatus_nil_iff {status : Option UInt64} : IsStatus [] status ↔ status = none := by
  simp [IsStatus]

theorem isStatus_concat_iff {vs : List (List Char)} {v : List Char} {status : Option UInt64} :
    IsStatus (vs ++ [v]) status ↔
      vs = [] ∧ ∃ n, Text.word? 10 (Text.trim v) = some n ∧ status = some n := by
  simp only [IsStatus, List.append_eq_nil_iff, List.cons_ne_self, and_false, false_and, false_or,
    Text.word?_eq_some_iff_isWord (by decide : 10 ≤ 16)]
  constructor
  · rintro ⟨w, n, hvs, hn, rfl⟩
    obtain ⟨rfl, hv⟩ := List.append_inj' (hvs.trans (List.nil_append [w]).symm) rfl
    obtain rfl : v = w := by simpa using hv
    exact ⟨rfl, n, hn, rfl⟩
  · rintro ⟨rfl, n, hn, rfl⟩
    exact ⟨v, n, rfl, hn, rfl⟩

/-- The status is absent just when no marker declares it. -/
theorem IsStatus.isSome_iff {vs : List (List Char)} {status : Option UInt64}
    (h : IsStatus vs status) : status.isSome = true ↔ vs ≠ [] := by
  rcases h with ⟨rfl, rfl⟩ | ⟨v, n, rfl, -, rfl⟩ <;> simp

theorem isStdout_iff {vs : List (List Char)} {stdout : Option String} :
    IsStdout vs stdout ↔
      stdout = if vs = [] then none else some (String.join (vs.map outputText)) := by
  rw [IsStdout]
  simp only [forall₂_isOutput_iff, exists_eq_left']
  split
  · next hnil => simp [hnil]
  · next hne => simp [hne]

theorem isStdout_concat_iff {vs : List (List Char)} {v : List Char} {stdout : Option String} :
    IsStdout (vs ++ [v]) stdout ↔
      ∃ earlier, IsStdout vs earlier ∧ stdout = some (earlier.getD "" ++ outputText v) := by
  simp only [isStdout_iff, exists_eq_left]
  rw [if_neg (by simp), List.map_append, String.join_append]
  split
  · next hnil => simp [hnil]
  · simp

/-! ## Line by line -/

/-- Takes the marker on a trimmed header line into account. -/
def readLine (e : Expectation) (number : Nat) (line : List Char) :
    Except ExpectationError Expectation :=
  match Marker.ofLine? line with
  | some marker => e.declare number marker
  | none => .ok e

/-- Reads the lines of a header. -/
def ofHeader (header : List (List Char)) : Except ExpectationError Expectation :=
  (header.mapIdx fun i line => (i + 1, Text.trim line)).foldlM (fun e p => readLine e p.1 p.2) {}

theorem ofHeader_nil : ofHeader [] = .ok {} := rfl

theorem ofHeader_concat (header : List (List Char)) (line : List Char) :
    ofHeader (header ++ [line]) =
      ofHeader header >>= fun e => readLine e (header.length + 1) (Text.trim line) := by
  rw [ofHeader, List.mapIdx_concat, List.foldlM_append]
  refine bind_congr fun e => ?_
  rw [List.foldlM_cons]
  exact bind_pure _

theorem ofHeader_congr {header header' : List (List Char)}
    (h : header.map Text.trim = header'.map Text.trim) : ofHeader header = ofHeader header' := by
  have hmap (ls : List (List Char)) : (ls.mapIdx fun i line => (i + 1, Text.trim line)) =
      (ls.map Text.trim).mapIdx fun i line => (i + 1, line) :=
    List.ext_getElem (by simp) (by simp)
  rw [ofHeader, ofHeader, hmap, hmap, h]

theorem isHeaderLine_iff {line : List Char} :
    isHeaderLine (Text.trim line) = true ↔ HeaderLine line := by
  simp [isHeaderLine, HeaderLine]

theorem exists_isHeader (lines : List (List Char)) : ∃ header rest, IsHeader lines header rest := by
  refine ⟨lines.takeWhile fun line => isHeaderLine (Text.trim line),
    lines.dropWhile fun line => isHeaderLine (Text.trim line), ?_, ?_, ?_⟩
  · exact List.takeWhile_append_dropWhile.symm
  · intro line hline
    exact isHeaderLine_iff.1 (List.all_eq_true.1 List.all_takeWhile line hline)
  · intro line hline hheader
    have hnot := List.head?_dropWhile_not (fun line => isHeaderLine (Text.trim line)) lines
    rw [Option.mem_def.1 hline] at hnot
    simp [isHeaderLine_iff.2 hheader] at hnot

/-- Nothing but its header is read of a source. -/
theorem ofSource_eq_ofHeader {source : String} {header rest : List (List Char)}
    (h : IsHeader (Text.lines source.toList) header rest) : ofSource source = ofHeader header := by
  have hlines : Expectation.header source.toList =
      header.mapIdx fun i line => (i + 1, Text.trim line) := by
    rw [Expectation.header, h.split, List.mapIdx_append, List.takeWhile_append_of_pos]
    · cases rest with
      | nil => simp
      | cons line rest =>
        have hline : isHeaderLine (Text.trim line) = false := by
          rw [Bool.eq_false_iff, ne_eq, isHeaderLine_iff]
          exact h.rest line rfl
        rw [List.mapIdx_cons, List.takeWhile_cons_of_neg (by simp [hline]), List.append_nil]
    · intro p hp
      obtain ⟨i, hi, rfl⟩ := List.mem_mapIdx.1 hp
      exact isHeaderLine_iff.2 (h.header _ (List.getElem_mem hi))
  rw [ofSource, hlines]
  rfl

/-- The marker of a header line, keyword by keyword. -/
theorem ofLine?_trim {line : List Char} (h : HeaderLine line) :
    Marker.ofLine? (Text.trim line) =
      match value? statusKeyword line with
      | some v => some (.status v)
      | none => (value? stdoutKeyword line).map .stdout := by
  rcases h with hnil | hsemicolon
  · rw [value?, value?, commentText, hnil]
    rfl
  · rw [Marker.ofLine?, if_pos hsemicolon, Marker.ofComment?, after?_eq_dropPrefix?,
      after?_eq_dropPrefix?]
    rfl

theorem readLine_of_plain {line : List Char} (h : HeaderLine line)
    (hstatus : value? statusKeyword line = none) (hstdout : value? stdoutKeyword line = none)
    (e : Expectation) (number : Nat) : readLine e number (Text.trim line) = .ok e := by
  simp only [readLine, ofLine?_trim h, hstatus, hstdout, Option.map_none]

theorem readLine_of_status {line v : List Char} (h : HeaderLine line)
    (hstatus : value? statusKeyword line = some v) (e : Expectation) (number : Nat) :
    readLine e number (Text.trim line) = e.declare number (.status v) := by
  simp only [readLine, ofLine?_trim h, hstatus]

theorem readLine_of_stdout {line v : List Char} (h : HeaderLine line)
    (hstatus : value? statusKeyword line = none) (hstdout : value? stdoutKeyword line = some v)
    (e : Expectation) (number : Nat) :
    readLine e number (Text.trim line) = e.declare number (.stdout v) := by
  simp only [readLine, ofLine?_trim h, hstatus, hstdout, Option.map_some]

theorem declare_status_eq_ok_iff {e e' : Expectation} {number : Nat} {v : List Char} :
    e.declare number (.status v) = .ok e' ↔
      e.status = none ∧
        ∃ n, Text.word? 10 (Text.trim v) = some n ∧ e' = { e with status := some n } := by
  rw [declare]
  cases e.status with
  | some earlier => simp
  | none => cases Text.word? 10 (Text.trim v) <;> simp [eq_comm]

theorem declare_status_eq_error_iff {e : Expectation} {number : Nat} {v : List Char}
    {error : ExpectationError} :
    e.declare number (.status v) = .error error ↔
      e.status.isSome ∧ error = .duplicateStatus number ∨
        e.status.isSome = false ∧ Text.word? 10 (Text.trim v) = none ∧
          error = .invalidStatus number (String.ofList (Text.trim v)) := by
  rw [declare]
  cases e.status with
  | some earlier => simp [eq_comm]
  | none => cases Text.word? 10 (Text.trim v) <;> simp [eq_comm]

theorem declares_iff {header : List (List Char)} {e : Expectation} :
    Declares header e ↔
      IsStatus (values statusKeyword header) e.status ∧
        IsStdout (values stdoutKeyword header) e.stdout :=
  ⟨fun h => ⟨h.status, h.stdout⟩, fun h => ⟨h.1, h.2⟩⟩

/-- One line more declares what it says behind the others. -/
theorem declares_concat_iff {header : List (List Char)} {line : List Char} (h : HeaderLine line)
    {e : Expectation} :
    Declares (header ++ [line]) e ↔
      ∃ earlier, Declares header earlier ∧
        readLine earlier (header.length + 1) (Text.trim line) = .ok e := by
  simp only [declares_iff, values_concat]
  cases hstatus : value? statusKeyword line with
  | some v =>
    simp only [value?_stdout_of_status hstatus, readLine_of_status h hstatus,
      declare_status_eq_ok_iff, Option.toList_some, Option.toList_none, List.append_nil,
      isStatus_concat_iff]
    constructor
    · rintro ⟨⟨hnil, n, hn, hstatus⟩, hstdout⟩
      refine ⟨⟨none, e.stdout⟩, ⟨?_, hstdout⟩, rfl, n, hn, ?_⟩
      · rw [hnil, isStatus_nil_iff]
      · rw [← hstatus]
    · rintro ⟨earlier, ⟨hstatus, hstdout⟩, hnone, n, hn, rfl⟩
      refine ⟨⟨?_, n, hn, rfl⟩, hstdout⟩
      by_contra hvalues
      have hsome := hstatus.isSome_iff.2 hvalues
      rw [hnone] at hsome
      cases hsome
  | none =>
    cases hstdout : value? stdoutKeyword line with
    | some v =>
      simp only [readLine_of_stdout h hstatus hstdout, declare, Option.toList_some,
        Option.toList_none, List.append_nil, isStdout_concat_iff, Except.ok.injEq]
      constructor
      · rintro ⟨hstatus, earlier, hearlier, hstdout⟩
        exact ⟨⟨e.status, earlier⟩, ⟨hstatus, hearlier⟩, by rw [← hstdout]⟩
      · rintro ⟨earlier, ⟨hstatus, hearlier⟩, rfl⟩
        exact ⟨hstatus, earlier.stdout, hearlier, rfl⟩
    | none =>
      simp [readLine_of_plain h hstatus hstdout]

/-- A header without errors declares what is read. -/
theorem ofHeader_eq_ok_iff {header : List (List Char)} (h : ∀ line ∈ header, HeaderLine line)
    {e : Expectation} : ofHeader header = .ok e ↔ Declares header e := by
  induction header using List.reverseRecOn generalizing e with
  | nil =>
    rw [ofHeader_nil, declares_iff]
    cases e
    simp [values, isStatus_nil_iff, isStdout_iff, eq_comm]
  | append_singleton header line ih =>
    obtain ⟨hheader, hline⟩ := List.forall_mem_append.1 h
    rw [ofHeader_concat, bind_eq_ok_iff, declares_concat_iff (hline line List.mem_cons_self)]
    simp only [ih hheader]

/-! ## The first error -/

/-- A line behind others is wrong just when it cannot be read behind them. -/
theorem readLine_eq_error_iff {header : List (List Char)} {line : List Char} (h : HeaderLine line)
    {earlier : Expectation} (hearlier : Declares header earlier) {error : ExpectationError} :
    readLine earlier (header.length + 1) (Text.trim line) = .error error ↔
      Offence header line error := by
  cases hstatus : value? statusKeyword line with
  | some v =>
    have hword : (∀ n, ¬Text.IsWord 10 (Text.trim v) n) ↔ Text.word? 10 (Text.trim v) = none := by
      simp only [← Text.word?_eq_some_iff_isWord (by decide : 10 ≤ 16),
        Option.eq_none_iff_forall_ne_some, ne_eq]
    rw [readLine_of_status h hstatus, declare_status_eq_error_iff, ← Bool.not_eq_true,
      hearlier.status.isSome_iff, not_not, ← hword]
    constructor
    · rintro (⟨hbefore, rfl⟩ | ⟨hbefore, hvalue, rfl⟩)
      · exact .duplicate hstatus hbefore
      · exact .invalid hstatus hbefore hvalue
    · intro hoffence
      cases hoffence with
      | duplicate _ hbefore => exact Or.inl ⟨hbefore, rfl⟩
      | invalid hmarker hbefore hvalue =>
        obtain rfl := Option.some.inj (hstatus.symm.trans hmarker)
        exact Or.inr ⟨hbefore, hvalue, rfl⟩
  | none =>
    have hnone : ¬Offence header line error := by
      intro hoffence
      cases hoffence with
      | duplicate hmarker => exact absurd (hstatus.symm.trans hmarker) (by simp)
      | invalid hmarker => exact absurd (hstatus.symm.trans hmarker) (by simp)
    cases hstdout : value? stdoutKeyword line with
    | some v => simpa [readLine_of_stdout h hstatus hstdout, declare] using hnone
    | none => simpa [readLine_of_plain h hstatus hstdout] using hnone

/-- A line of a longer list is the last one, or it stands in front of that. -/
theorem concat_eq_append_cons_iff {α : Type} {xs before after : List α} {last x : α} :
    xs ++ [last] = before ++ x :: after ↔
      xs = before ∧ last = x ∧ after = [] ∨
        ∃ after', after = after' ++ [last] ∧ xs = before ++ x :: after' := by
  constructor
  · intro h
    rcases List.eq_nil_or_concat after with rfl | ⟨after', y, rfl⟩
    · obtain ⟨hxs, hlast⟩ := List.append_inj' h rfl
      exact Or.inl ⟨hxs, (List.cons.inj hlast).1, rfl⟩
    · rw [List.concat_eq_append, ← List.cons_append, ← List.append_assoc] at h
      obtain ⟨hxs, hlast⟩ := List.append_inj' h rfl
      rw [hlast]
      exact Or.inr ⟨after', by simp, hxs⟩
  · rintro (⟨rfl, rfl, rfl⟩ | ⟨after', rfl, rfl⟩)
    · rfl
    · rw [List.append_assoc, List.cons_append]

theorem clean_concat_iff {header : List (List Char)} {line : List Char} :
    Clean (header ++ [line]) ↔ Clean header ∧ ∀ e, ¬Offence header line e := by
  simp only [Clean, concat_eq_append_cons_iff]
  constructor
  · intro h
    exact ⟨fun before l after hsplit => h before l (after ++ [line]) (Or.inr ⟨after, rfl, hsplit⟩),
      h header line [] (Or.inl ⟨rfl, rfl, rfl⟩)⟩
  · rintro ⟨hheader, hline⟩ before l after (⟨rfl, rfl, -⟩ | ⟨after', -, hsplit⟩)
    · exact hline
    · exact hheader before l after' hsplit

theorem firstOffence_concat_iff {header : List (List Char)} {line : List Char}
    {error : ExpectationError} :
    FirstOffence (header ++ [line]) error ↔
      FirstOffence header error ∨ Clean header ∧ Offence header line error := by
  simp only [FirstOffence, concat_eq_append_cons_iff]
  constructor
  · rintro ⟨before, l, after, ⟨rfl, rfl, -⟩ | ⟨after', -, hsplit⟩, hclean, hoffence⟩
    · exact Or.inr ⟨hclean, hoffence⟩
    · exact Or.inl ⟨before, l, after', hsplit, hclean, hoffence⟩
  · rintro (⟨before, l, after, hsplit, hfirst⟩ | hlast)
    · exact ⟨before, l, after ++ [line], Or.inr ⟨after, rfl, hsplit⟩, hfirst⟩
    · exact ⟨header, line, [], Or.inl ⟨rfl, rfl, rfl⟩, hlast⟩

/-- A header declares something just when none of its lines is wrong. -/
theorem exists_declares_iff {header : List (List Char)} (h : ∀ line ∈ header, HeaderLine line) :
    (∃ e, Declares header e) ↔ Clean header := by
  induction header using List.reverseRecOn with
  | nil =>
    have hclean : Clean [] := fun before line after hsplit => by simp at hsplit
    exact iff_of_true ⟨{}, (ofHeader_eq_ok_iff (by simp)).1 ofHeader_nil⟩ hclean
  | append_singleton header line ih =>
    obtain ⟨hheader, hline⟩ := List.forall_mem_append.1 h
    rw [clean_concat_iff, ← ih hheader]
    constructor
    · rintro ⟨e, he⟩
      obtain ⟨earlier, hearlier, hread⟩ :=
        (declares_concat_iff (hline line List.mem_cons_self)).1 he
      refine ⟨⟨earlier, hearlier⟩, fun error hoffence => ?_⟩
      rw [← readLine_eq_error_iff (hline line List.mem_cons_self) hearlier, hread] at hoffence
      cases hoffence
    · rintro ⟨⟨earlier, hearlier⟩, hnone⟩
      simp only [← readLine_eq_error_iff (hline line List.mem_cons_self) hearlier] at hnone
      obtain ⟨e, he⟩ := exists_ok_iff.2 hnone
      exact ⟨e, (declares_concat_iff (hline line List.mem_cons_self)).2 ⟨earlier, hearlier, he⟩⟩

/-- A header fails with the error of its first line that is wrong. -/
theorem ofHeader_eq_error_iff {header : List (List Char)} (h : ∀ line ∈ header, HeaderLine line)
    {error : ExpectationError} : ofHeader header = .error error ↔ FirstOffence header error := by
  induction header using List.reverseRecOn with
  | nil =>
    rw [ofHeader_nil]
    refine iff_of_false (by simp) ?_
    rintro ⟨before, line, after, hsplit, -⟩
    simp at hsplit
  | append_singleton header line ih =>
    obtain ⟨hheader, hline⟩ := List.forall_mem_append.1 h
    rw [ofHeader_concat, bind_eq_error_iff, firstOffence_concat_iff, ih hheader,
      ← exists_declares_iff hheader, ← exists_and_right]
    refine or_congr_right (exists_congr fun earlier => ?_)
    rw [ofHeader_eq_ok_iff hheader]
    exact and_congr_right fun hearlier =>
      readLine_eq_error_iff (hline line List.mem_cons_self) hearlier

/-- A header declares something if it has one status at most, and that is a number. -/
theorem exists_declares_iff_values {header : List (List Char)} :
    (∃ e, Declares header e) ↔
      (values statusKeyword header).length ≤ 1 ∧
        ∀ v ∈ values statusKeyword header, ∃ n, Text.IsWord 10 (Text.trim v) n := by
  have hstatus : (∃ e, Declares header e) ↔
      ∃ status, IsStatus (values statusKeyword header) status :=
    ⟨fun ⟨e, he⟩ => ⟨e.status, he.status⟩,
      fun ⟨status, h⟩ => ⟨⟨status, _⟩, h, isStdout_iff.2 rfl⟩⟩
  rw [hstatus]
  generalize values statusKeyword header = vs
  match vs with
  | [] => simp [isStatus_nil_iff]
  | [v] => simp [IsStatus]
  | v :: w :: vs => simp [IsStatus]

/-! ## Sources -/

/-- The result for a source is decided by its header, of which only the trimmed lines count. It is
an error just when the header has two status markers or one whose value is no machine word. The
error is that of the first wrong line, and without errors the markers declare the result. -/
theorem header_decides_expectation (source : String) :
    ∃ header rest, IsHeader (Text.lines source.toList) header rest ∧
      ((∃ error, ofSource source = .error error) ↔
        1 < (values statusKeyword header).length ∨
          ∃ v ∈ values statusKeyword header, ∀ n, ¬Text.IsWord 10 (Text.trim v) n) ∧
      (∀ error, ofSource source = .error error ↔ FirstOffence header error) ∧
      (∀ e, ofSource source = .ok e ↔ Declares header e) ∧
      ∀ source' header' rest', IsHeader (Text.lines source'.toList) header' rest' →
        header'.map Text.trim = header.map Text.trim → ofSource source' = ofSource source := by
  obtain ⟨header, rest, hheader⟩ := exists_isHeader (Text.lines source.toList)
  refine ⟨header, rest, hheader, ?_, ?_, ?_, ?_⟩
  · have hdeclares := @exists_declares_iff_values header
    simp only [← ofHeader_eq_ok_iff hheader.header, exists_ok_iff] at hdeclares
    rw [ofSource_eq_ofHeader hheader]
    have hnot := not_congr hdeclares
    push Not at hnot
    rwa [imp_iff_not_or, not_le] at hnot
  · rw [ofSource_eq_ofHeader hheader]
    exact fun _ => ofHeader_eq_error_iff hheader.header
  · rw [ofSource_eq_ofHeader hheader]
    exact fun _ => ofHeader_eq_ok_iff hheader.header
  · intro source' header' rest' hheader' htrim
    rw [ofSource_eq_ofHeader hheader, ofSource_eq_ofHeader hheader', ofHeader_congr htrim]

/-- A second status is an error whatever its value, and only the first error counts. -/
example : ofSource ";; EXPECT_STATUS: 1\n\n; EXPECT_STATUS: no\n;; EXPECT_STATUS:" =
    .error (.duplicateStatus 3) := by
  decide

/-- A marker behind the header is not read. -/
example : ofSource ";; EXPECT_STATUS: +13\n;; EXPECT_STDOUT: hi\\n\nmain:\n;; EXPECT_STATUS: 1" =
    .ok ⟨some 13, some "hi\n"⟩ := by
  decide

end X64.Expectation
