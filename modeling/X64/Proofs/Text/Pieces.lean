import X64.Text.Split
import Mathlib.Data.List.Basic

/-!
# Pieces of printed text

Text that is printed from its pieces is cut into the same pieces again. There are five groups, one
for each way of cutting.

* Trimming. `Tight` text has no blank at either end, and `trim_pad` recovers it from any padding.
  Every text is a tight one with padding (`exists_trim`), and padding that is added to it changes
  nothing (`trim_append_left` and `trim_append_right`).
* Words. `words_append` splits a text without blanks and the gap after it off the front, and
  `words_of_text` is the last word of a text.
* Items. A list is cut at its commas (`items_append_comma`), whatever the blanks around them, and
  `items_intercalate` recovers the items of a list that is printed with `", "`.
* Cuts. `cutAt_append` finds a mark, and `cutAt_eq_none` is about a text without it.
* Lines. `lines_append` cuts at a newline, and `lines_flatMap` recovers printed lines. A text that
  ends in a newline has the lines that it has without it, or an empty one more, and it has as many
  lines as newlines.
-/

namespace X64.Text

/-! ## Trimming -/

/-- Text with no blank at either end. -/
structure Tight (cs : List Char) : Prop where
  head : ∀ c ∈ cs.head?, isBlank c = false
  last : ∀ c ∈ cs.getLast?, isBlank c = false

/-- Text that consists of blanks only. -/
def Blanks (cs : List Char) : Prop := ∀ c ∈ cs, isBlank c = true

instance (cs : List Char) : Decidable (Blanks cs) :=
  List.decidableBAll _ cs

theorem blanks_nil : Blanks [] := by decide

theorem Tight.of_forall {cs : List Char} (h : ∀ c ∈ cs, isBlank c = false) : Tight cs where
  head c hc := h c (List.mem_of_mem_head? hc)
  last c hc := h c (List.mem_of_getLast? hc)

/-- Text between two tight texts, neither of them empty. -/
theorem Tight.append {a b : List Char} (ha : Tight a) (hb : Tight b) (hane : a ≠ []) (hbne : b ≠ [])
    (cs : List Char) : Tight (a ++ (cs ++ b)) where
  head c hc := by
    rw [List.head?_append_of_ne_nil _ hane] at hc
    exact ha.head c hc
  last c hc := by
    rw [← List.append_assoc, List.getLast?_append_of_ne_nil _ hbne] at hc
    exact hb.last c hc

theorem trimStart_of_head {cs : List Char} (h : ∀ c ∈ cs.head?, isBlank c = false) :
    trimStart cs = cs := by
  cases cs with
  | nil => rfl
  | cons c cs =>
    have hc : isBlank c = false := h c rfl
    rw [trimStart, List.dropWhile_cons_of_neg (by simp [hc])]

theorem trimStart_append {p : List Char} (hp : Blanks p) (cs : List Char) :
    trimStart (p ++ cs) = trimStart cs := by
  rw [trimStart, List.dropWhile_append_of_pos hp]
  rfl

theorem trimEnd_of_blanks {q : List Char} (hq : Blanks q) : trimEnd q = [] := by
  induction q with
  | nil => rfl
  | cons c q ih =>
    have hc : isBlank c = true := hq c List.mem_cons_self
    have hrest : trimEnd q = [] := ih fun d hd => hq d (List.mem_cons_of_mem _ hd)
    rw [trimEnd_cons, hrest, hc]
    rfl

/-- Blanks behind a text without a blank at its end are all that is dropped. -/
theorem trimEnd_append {cs q : List Char} (h : ∀ c ∈ cs.getLast?, isBlank c = false)
    (hq : Blanks q) : trimEnd (cs ++ q) = cs := by
  induction cs with
  | nil => exact trimEnd_of_blanks hq
  | cons c cs ih =>
    rw [List.cons_append, trimEnd_cons]
    cases cs with
    | nil =>
      have hc : isBlank c = false := h c rfl
      rw [List.nil_append, trimEnd_of_blanks hq, hc]
      rfl
    | cons d cs =>
      rw [ih fun e he => h e (by simpa using he)]
      rfl

/-- Trimming drops the padding around a tight text. -/
theorem trim_pad {p cs q : List Char} (h : Tight cs) (hp : Blanks p) (hq : Blanks q) :
    trim (p ++ (cs ++ q)) = cs := by
  rw [trim, trimStart_append hp]
  cases cs with
  | nil =>
    rw [List.nil_append]
    have hnil : trimStart q = [] := by
      have happend := trimStart_append hq []
      rwa [List.append_nil] at happend
    rw [hnil]
    rfl
  | cons c cs =>
    rw [trimStart_of_head (by simpa using h.head)]
    exact trimEnd_append h.last hq

theorem trim_of_blanks {cs : List Char} (h : Blanks cs) : trim cs = [] := by
  have hnil : Tight [] := .of_forall fun c hc => nomatch hc
  have hpad := trim_pad hnil h blanks_nil
  rwa [List.nil_append, List.append_nil] at hpad

theorem trim_of_tight {cs : List Char} (h : Tight cs) : trim cs = cs := by
  have hpad := trim_pad h blanks_nil blanks_nil
  rwa [List.nil_append, List.append_nil] at hpad

theorem exists_trimEnd (cs : List Char) :
    ∃ after, cs = trimEnd cs ++ after ∧ Blanks after ∧
      ∀ c ∈ (trimEnd cs).getLast?, isBlank c = false := by
  induction cs with
  | nil => exact ⟨[], rfl, blanks_nil, by simp⟩
  | cons c cs ih =>
    obtain ⟨after, hcs, hafter, hlast⟩ := ih
    rw [trimEnd_cons]
    split
    · next hblank =>
      simp only [Bool.and_eq_true, List.isEmpty_iff] at hblank
      rw [hblank.1, List.nil_append] at hcs
      refine ⟨c :: cs, rfl, ?_, by simp⟩
      exact List.forall_mem_cons.2 ⟨hblank.2, hcs ▸ hafter⟩
    · next hblank =>
      refine ⟨after, congrArg (c :: ·) hcs, hafter, fun d hd => ?_⟩
      cases htrim : trimEnd cs with
      | nil =>
        rw [htrim] at hd hblank
        obtain rfl : c = d := by simpa using hd
        simpa using hblank
      | cons e rest =>
        rw [htrim, List.getLast?_cons_cons] at hd
        exact hlast d (htrim ▸ hd)

/-- A text is its trimmed text with blanks around it. -/
theorem exists_trim (cs : List Char) :
    ∃ before after, cs = before ++ (trim cs ++ after) ∧ Blanks before ∧ Blanks after ∧
      Tight (trim cs) := by
  obtain ⟨after, hcs, hafter, hlast⟩ := exists_trimEnd (trimStart cs)
  refine ⟨cs.takeWhile isBlank, after, ?_, List.all_eq_true.1 List.all_takeWhile, hafter, ?_, hlast⟩
  · exact List.takeWhile_append_dropWhile.symm.trans (congrArg (cs.takeWhile isBlank ++ ·) hcs)
  · intro c hc
    have hhead : (trimStart cs).head? = some c := by
      rw [hcs, List.head?_append_of_ne_nil]
      · exact hc
      · intro hnil
        rw [trim, hnil] at hc
        cases hc
    have hnot := List.head?_dropWhile_not isBlank cs
    rw [trimStart] at hhead
    rw [hhead] at hnot
    simpa using hnot

/-- Blanks in front of a text are trimmed with it. -/
theorem trim_append_left {p : List Char} (hp : Blanks p) (cs : List Char) :
    trim (p ++ cs) = trim cs := by
  rw [trim, trimStart_append hp]
  rfl

/-- Blanks behind a text are trimmed with it. -/
theorem trim_append_right {q : List Char} (hq : Blanks q) (cs : List Char) :
    trim (cs ++ q) = trim cs := by
  obtain ⟨before, after, hcs, hbefore, hafter, htight⟩ := exists_trim cs
  have hsplit : cs ++ q = before ++ (trim cs ++ (after ++ q)) := by
    rw [← List.append_assoc (trim cs), ← List.append_assoc before, ← hcs]
  rw [hsplit]
  exact trim_pad htight hbefore (List.forall_mem_append.2 ⟨hafter, hq⟩)

theorem mem_of_mem_trim {c : Char} {cs : List Char} (h : c ∈ trim cs) : c ∈ cs := by
  obtain ⟨before, after, hcs, -⟩ := exists_trim cs
  rw [hcs]
  simp [h]

/-- A character that is trimmed is a blank. -/
theorem isBlank_or_mem_trim {c : Char} {cs : List Char} (h : c ∈ cs) :
    isBlank c = true ∨ c ∈ trim cs := by
  obtain ⟨before, after, hcs, hbefore, hafter, -⟩ := exists_trim cs
  rw [hcs, List.mem_append, List.mem_append] at h
  rcases h with h | h | h
  · exact Or.inl (hbefore c h)
  · exact Or.inr h
  · exact Or.inl (hafter c h)

/-- Only blanks are trimmed to nothing. -/
theorem blanks_of_trim {cs : List Char} (h : trim cs = []) : Blanks cs := by
  obtain ⟨before, after, hcs, hbefore, hafter, -⟩ := exists_trim cs
  rw [h, List.nil_append] at hcs
  rw [hcs]
  exact List.forall_mem_append.2 ⟨hbefore, hafter⟩

/-! ## Words -/

theorem words_cons_of_blank {c : Char} (hc : isBlank c = true) (cs : List Char) :
    words (c :: cs) =
      match words cs with
      | ⟨[], gap⟩ :: rest => ⟨[], c :: gap⟩ :: rest
      | rest => ⟨[], [c]⟩ :: rest := by
  rw [words, List.foldr_cons, if_pos hc]
  rfl

theorem words_cons_of_not_blank {c : Char} (hc : isBlank c = false) (cs : List Char) :
    words (c :: cs) =
      match words cs with
      | ⟨text, gap⟩ :: rest => ⟨c :: text, gap⟩ :: rest
      | [] => [⟨[c], []⟩] := by
  rw [words, List.foldr_cons, if_neg (by simp [hc])]
  rfl

/-- A word has no blanks in its text, and only blanks in its gap. -/
theorem blanks_of_mem_words {cs : List Char} :
    ∀ w ∈ words cs, (∀ c ∈ w.text, isBlank c = false) ∧ Blanks w.gap := by
  induction cs with
  | nil => simp [words]
  | cons c cs ih =>
    cases hc : isBlank c with
    | true =>
      rw [words_cons_of_blank hc]
      split
      · next gap rest heq =>
        rw [heq] at ih
        refine List.forall_mem_cons.2 ⟨⟨by simp, ?_⟩, (List.forall_mem_cons.1 ih).2⟩
        exact List.forall_mem_cons.2 ⟨hc, ((List.forall_mem_cons.1 ih).1).2⟩
      · exact List.forall_mem_cons.2 ⟨⟨by simp, by simpa [Blanks] using hc⟩, ih⟩
    | false =>
      rw [words_cons_of_not_blank hc]
      split
      · next text gap rest heq =>
        rw [heq] at ih
        obtain ⟨⟨htext, hgap⟩, hrest⟩ := List.forall_mem_cons.1 ih
        exact List.forall_mem_cons.2 ⟨⟨List.forall_mem_cons.2 ⟨hc, htext⟩, hgap⟩, hrest⟩
      · simpa [Blanks] using hc

/-- Blanks in front are the gap of a word without text. -/
theorem words_append_of_blanks {gap rest : List Char} (hgap : Blanks gap) (hne : gap ≠ [])
    (hrest : ∀ c ∈ rest.head?, isBlank c = false) :
    words (gap ++ rest) = ⟨[], gap⟩ :: words rest := by
  induction gap with
  | nil => exact absurd rfl hne
  | cons c gap ih =>
    have hc : isBlank c = true := hgap c List.mem_cons_self
    rw [List.cons_append, words_cons_of_blank hc]
    cases gap with
    | nil =>
      rw [List.nil_append]
      cases rest with
      | nil => rfl
      | cons d rest =>
        rw [words_cons_of_not_blank (hrest d rfl)]
        cases words rest <;> rfl
    | cons d gap =>
      rw [ih (fun e he => hgap e (List.mem_cons_of_mem _ he)) (by simp)]

/-- The first word of a text, and the words after it. -/
theorem words_append {text gap rest : List Char} (htext : ∀ c ∈ text, isBlank c = false)
    (hgap : Blanks gap) (hne : gap ≠ []) (hrest : ∀ c ∈ rest.head?, isBlank c = false) :
    words (text ++ (gap ++ rest)) = ⟨text, gap⟩ :: words rest := by
  induction text with
  | nil => exact words_append_of_blanks hgap hne hrest
  | cons c text ih =>
    rw [List.cons_append, words_cons_of_not_blank (htext c List.mem_cons_self),
      ih fun d hd => htext d (List.mem_cons_of_mem _ hd)]

/-- A text without blanks is one word. -/
theorem words_of_text {text : List Char} (htext : ∀ c ∈ text, isBlank c = false)
    (hne : text ≠ []) : words text = [⟨text, []⟩] := by
  induction text with
  | nil => exact absurd rfl hne
  | cons c text ih =>
    rw [words_cons_of_not_blank (htext c List.mem_cons_self)]
    cases text with
    | nil => rfl
    | cons d text => rw [ih (fun e he => htext e (List.mem_cons_of_mem _ he)) (by simp)]

/-- The first word of a text is what stands in front of its first blank. -/
theorem exists_words {cs : List Char} (hne : cs ≠ []) :
    ∃ gap ws, words cs = ⟨cs.takeWhile fun c => !isBlank c, gap⟩ :: ws := by
  induction cs with
  | nil => exact absurd rfl hne
  | cons c cs ih =>
    cases hc : isBlank c with
    | true =>
      rw [words_cons_of_blank hc, List.takeWhile_cons_of_neg (by simp [hc])]
      split
      · exact ⟨_, _, rfl⟩
      · exact ⟨_, _, rfl⟩
    | false =>
      rw [words_cons_of_not_blank hc, List.takeWhile_cons_of_pos (by simp [hc])]
      cases cs with
      | nil => exact ⟨[], [], rfl⟩
      | cons d cs =>
        obtain ⟨gap, ws, hwords⟩ := ih (by simp)
        rw [hwords]
        exact ⟨gap, ws, rfl⟩

/-- Trimming does not change what stands in front of the first blank. -/
theorem takeWhile_trimEnd (cs : List Char) :
    (trimEnd cs).takeWhile (fun c => !isBlank c) = cs.takeWhile fun c => !isBlank c := by
  induction cs with
  | nil => rfl
  | cons c cs ih =>
    rw [trimEnd_cons]
    cases hc : isBlank c with
    | true =>
      rw [List.takeWhile_cons_of_neg (by simp [hc])]
      split
      · rfl
      · rw [List.takeWhile_cons_of_neg (by simp [hc])]
    | false =>
      rw [Bool.and_false, if_neg Bool.false_ne_true, List.takeWhile_cons_of_pos (by simp [hc]),
        List.takeWhile_cons_of_pos (by simp [hc]), ih]

/-- The first word of a text that is trimmed. Of the gap behind the word nothing is left if no text
follows it. -/
theorem exists_words_trim {name rest : List Char} (hname : ∀ c ∈ name, isBlank c = false)
    (hne : name ≠ []) (hrest : ∀ c ∈ rest.head?, isBlank c = true) :
    ∃ gap, words (trim (name ++ rest)) = ⟨name, gap⟩ :: words (trim rest) := by
  have hnameTight := Tight.of_forall hname
  obtain ⟨before, after, hsplit, hbefore, hafter, htight⟩ := exists_trim rest
  cases htrim : trim rest with
  | nil =>
    rw [trim_append_right (blanks_of_trim htrim), trim_of_tight hnameTight, words_of_text hname hne]
    exact ⟨[], rfl⟩
  | cons d core =>
    rw [htrim] at hsplit htight
    have hbeforeNe : before ≠ [] := by
      rintro rfl
      have hblank := hrest d (by rw [hsplit]; rfl)
      rw [htight.head d rfl] at hblank
      cases hblank
    have hwhole := hnameTight.append htight hne (List.cons_ne_nil d core) before
    rw [hsplit, ← List.append_assoc before, ← List.append_assoc name, trim_append_right hafter,
      trim_of_tight hwhole, words_append hname hbefore hbeforeNe htight.head]
    exact ⟨before, rfl⟩

/-! ## Items -/

/-- A text without commas has one item, or none if it is blank. -/
theorem items_of_not_mem {cs : List Char} (h : ',' ∉ cs) :
    items cs = if trim cs = [] then [] else [trim cs] := by
  rw [items, List.splitOn_eq_singleton h, List.map_singleton]
  by_cases htrim : trim cs = []
  · simp [htrim]
  · simp [htrim]

theorem comma_not_mem_of_trim {cs : List Char} (h : trim cs = []) : ',' ∉ cs := fun hmem =>
  absurd (blanks_of_trim h ',' hmem) (by decide)

theorem comma_not_mem_of_blanks {cs : List Char} (h : Blanks cs) : ',' ∉ cs :=
  comma_not_mem_of_trim (trim_of_blanks h)

/-- A comma ends the items before it. -/
theorem items_append_comma (a b : List Char) : items (a ++ ',' :: b) = items a ++ items b := by
  rw [items, List.splitOn_append_cons_self, List.map_append, List.filter_append]
  rfl

/-- Blanks in front of a list belong to no item. -/
theorem items_append_left {p : List Char} (hp : Blanks p) (cs : List Char) :
    items (p ++ cs) = items cs := by
  have hfirst (a : List Char) (ha : ',' ∉ a) : items (p ++ a) = items a := by
    rw [items_of_not_mem (by simp [comma_not_mem_of_blanks hp, ha]), items_of_not_mem ha,
      trim_append_left hp]
  by_cases hcomma : ',' ∈ cs
  · obtain ⟨a, b, rfl, ha⟩ := List.eq_append_cons_of_mem hcomma
    rw [← List.append_assoc, items_append_comma, items_append_comma, hfirst a ha]
  · exact hfirst cs hcomma

/-- Blanks behind a list belong to no item. -/
theorem items_append_right {q : List Char} (hq : Blanks q) (cs : List Char) :
    items (cs ++ q) = items cs := by
  by_cases hcomma : ',' ∈ cs
  · obtain ⟨a, b, hcs, -⟩ := List.eq_append_cons_of_mem hcomma
    have hshorter : b.length < cs.length := by
      rw [hcs, List.length_append, List.length_cons]
      omega
    rw [hcs, List.append_assoc, List.cons_append, items_append_comma, items_append_comma,
      items_append_right hq b]
  · rw [items_of_not_mem (by simp [comma_not_mem_of_blanks hq, hcomma]), items_of_not_mem hcomma,
      trim_append_right hq]
termination_by cs.length

theorem items_trim (cs : List Char) : items (trim cs) = items cs := by
  obtain ⟨before, after, hcs, hbefore, hafter, -⟩ := exists_trim cs
  conv_rhs => rw [hcs, items_append_left hbefore, items_append_right hafter]

/-- A printed list is the list of its items with a comma in between, if each item but the first
takes the blank in front of it. -/
theorem intercalate_comma_blank (t : List Char) (ts : List (List Char)) :
    [',', ' '].intercalate (t :: ts) = [','].intercalate (t :: ts.map (' ' :: ·)) := by
  induction ts generalizing t with
  | nil => rfl
  | cons u ts ih =>
    rw [List.intercalate_cons_cons, List.map_cons, List.intercalate_cons_cons, ih]
    cases ts <;> simp [List.intercalate_cons_cons]

/-- The items of a printed list are those that it was printed from. -/
theorem items_intercalate {ts : List (List Char)} (hne : ∀ t ∈ ts, t ≠ [])
    (htight : ∀ t ∈ ts, Tight t) (hcomma : ∀ t ∈ ts, ',' ∉ t) :
    items ([',', ' '].intercalate ts) = ts := by
  cases ts with
  | nil => rfl
  | cons t ts =>
    have hsplit : ([',', ' '].intercalate (t :: ts)).splitOn ',' = t :: ts.map (' ' :: ·) := by
      rw [intercalate_comma_blank]
      refine List.splitOn_intercalate ',' ?_ (by simp)
      intro u hu
      rcases List.mem_cons.1 hu with rfl | hu
      · exact hcomma u List.mem_cons_self
      · obtain ⟨v, hv, rfl⟩ := List.mem_map.1 hu
        have hv' := hcomma v (List.mem_cons_of_mem _ hv)
        simpa using hv'
    have htrim : (t :: ts.map (' ' :: ·)).map trim = t :: ts := by
      rw [List.map_cons, List.map_map, trim_of_tight (htight t List.mem_cons_self)]
      have hrest : ∀ u ∈ ts, (trim ∘ (' ' :: ·)) u = u := by
        intro u hu
        have hpad := trim_pad (p := [' ']) (q := []) (htight u (List.mem_cons_of_mem _ hu))
          (by decide) blanks_nil
        rwa [List.append_nil] at hpad
      rw [List.map_congr_left hrest, List.map_id']
    rw [items, hsplit, htrim, List.filter_eq_self]
    intro u hu
    simpa using hne u hu

theorem mem_intercalate {c : Char} {ts : List (List Char)}
    (h : c ∈ [',', ' '].intercalate ts) : c = ',' ∨ c = ' ' ∨ ∃ t ∈ ts, c ∈ t := by
  induction ts with
  | nil => simp at h
  | cons t ts ih =>
    cases ts with
    | nil => exact Or.inr (Or.inr ⟨t, by simp, by simpa using h⟩)
    | cons u ts =>
      rw [List.intercalate_cons_cons, List.append_assoc, List.mem_append, List.mem_append] at h
      rcases h with h | h | h
      · exact Or.inr (Or.inr ⟨t, List.mem_cons_self, h⟩)
      · simp only [List.mem_cons, List.not_mem_nil, or_false] at h
        rcases h with rfl | rfl
        · exact Or.inl rfl
        · exact Or.inr (Or.inl rfl)
      · rcases ih h with h | h | ⟨v, hv, hc⟩
        · exact Or.inl h
        · exact Or.inr (Or.inl h)
        · exact Or.inr (Or.inr ⟨v, List.mem_cons_of_mem _ hv, hc⟩)

/-! ## Cuts -/

/-- A mark is not found in a text that lacks one of its characters. -/
theorem cutAt_eq_none {mark cs : List Char} {c : Char} (hmark : c ∈ mark) (hc : c ∉ cs) :
    cutAt mark cs = none := by
  induction cs with
  | nil => rfl
  | cons d cs ih =>
    have hprefix : mark.isPrefixOf (d :: cs) = false := by
      rw [Bool.eq_false_iff]
      intro h
      exact hc ((List.isPrefixOf_iff_prefix.1 h).mem hmark)
    rw [cutAt, hprefix, ih fun hmem => hc (List.mem_cons_of_mem _ hmem)]
    rfl

theorem eq_append_of_cutAt {mark cs before after : List Char}
    (h : cutAt mark cs = some (before, after)) : cs = before ++ (mark ++ after) := by
  induction cs generalizing before with
  | nil => cases h
  | cons c cs ih =>
    rw [cutAt] at h
    split at h
    · next hmark =>
      cases h
      exact (List.prefix_iff_eq_append.1 (List.isPrefixOf_iff_prefix.1 hmark)).symm
    · obtain ⟨⟨before', after'⟩, hcut, heq⟩ := Option.map_eq_some_iff.1 h
      cases heq
      exact congrArg (c :: ·) (ih hcut)

/-- A mark is found behind a text that lacks its first character. -/
theorem cutAt_append {m : Char} {mark before : List Char} (h : m ∉ before) (after : List Char) :
    cutAt (m :: mark) (before ++ (m :: mark ++ after)) = some (before, after) := by
  induction before with
  | nil => simp [cutAt]
  | cons c before ih =>
    have hne : m ≠ c := fun heq => h (heq ▸ List.mem_cons_self)
    have hrest := ih fun hmem => h (List.mem_cons_of_mem _ hmem)
    rw [List.cons_append, cutAt, if_neg (by simp [hne]), hrest]
    rfl

/-! ## Lines -/

theorem lines_cons {c : Char} (hc : c ≠ '\n') (cs : List Char) :
    lines (c :: cs) =
      match lines cs with
      | [] => [[c]]
      | line :: rest => (c :: line) :: rest := by
  rw [lines, List.foldr_cons, if_neg hc]
  rfl

/-- A line holds no newline. -/
theorem newline_not_mem_lines (cs : List Char) : ∀ line ∈ lines cs, '\n' ∉ line := by
  induction cs with
  | nil => exact fun line hline => nomatch hline
  | cons c cs ih =>
    by_cases hc : c = '\n'
    · rw [hc, lines_newline]
      exact List.forall_mem_cons.2 ⟨List.not_mem_nil, ih⟩
    · rw [lines_cons hc]
      split
      · exact List.forall_mem_singleton.2 (by simpa using Ne.symm hc)
      · next first rest hlines =>
        rw [hlines] at ih
        obtain ⟨hfirst, hrest⟩ := List.forall_mem_cons.1 ih
        refine List.forall_mem_cons.2 ⟨fun hmem => ?_, hrest⟩
        obtain heq | hmem := List.mem_cons.1 hmem
        · exact hc heq.symm
        · exact hfirst hmem

theorem eq_nil_of_lines {cs : List Char} (h : lines cs = []) : cs = [] := by
  cases cs with
  | nil => rfl
  | cons c cs =>
    by_cases hc : c = '\n'
    · simp [hc] at h
    · rw [lines_cons hc] at h
      split at h <;> simp at h

/-- A newline ends the lines before it. -/
theorem lines_append (a b : List Char) :
    lines (a ++ '\n' :: b) = lines (a ++ ['\n']) ++ lines b := by
  induction a with
  | nil => simp
  | cons c a ih =>
    rw [List.cons_append, List.cons_append]
    by_cases hc : c = '\n'
    · rw [hc, lines_newline, lines_newline, ih]
      rfl
    · rw [lines_cons hc, lines_cons hc, ih]
      cases ha : lines (a ++ ['\n']) with
      | nil => exact absurd (eq_nil_of_lines ha) (by simp)
      | cons line rest => rfl

/-- A newline at the end closes the last line, or makes an empty one. -/
theorem lines_append_newline (a : List Char) :
    lines (a ++ ['\n']) = lines a ∨ lines (a ++ ['\n']) = lines a ++ [[]] := by
  induction a with
  | nil => exact Or.inr rfl
  | cons c a ih =>
    rw [List.cons_append]
    by_cases hc : c = '\n'
    · rw [hc, lines_newline, lines_newline]
      rcases ih with h | h
      · exact Or.inl (by rw [h])
      · exact Or.inr (by rw [h]; rfl)
    · rw [lines_cons hc, lines_cons hc]
      rcases ih with h | h
      · exact Or.inl (by rw [h])
      · rw [h]
        cases lines a with
        | nil => exact Or.inl rfl
        | cons line rest => exact Or.inr rfl

/-- A newline at the end closes one line more than there are newlines in front of it. -/
theorem length_lines_append_newline (a : List Char) :
    (lines (a ++ ['\n'])).length = a.count '\n' + 1 := by
  induction a with
  | nil => rfl
  | cons c a ih =>
    rw [List.cons_append]
    by_cases hc : c = '\n'
    · rw [hc, lines_newline, List.length_cons, ih, List.count_cons_self]
    · rw [lines_cons hc, List.count_cons_of_ne hc]
      cases ha : lines (a ++ ['\n']) with
      | nil => exact absurd (eq_nil_of_lines ha) (by simp)
      | cons line rest =>
        rw [ha] at ih
        exact ih

/-- A text without newlines is the only line of itself. -/
theorem lines_of_line {line : List Char} (h : '\n' ∉ line) : lines (line ++ ['\n']) = [line] := by
  induction line with
  | nil => rfl
  | cons c line ih =>
    have hc : c ≠ '\n' := fun e => h (e ▸ List.mem_cons_self)
    rw [List.cons_append, lines_cons hc, ih fun hmem => h (List.mem_cons_of_mem _ hmem)]

/-- A line that stands behind other lines and in front of a newline. -/
theorem lines_middle {before line : List Char}
    (hbefore : before = [] ∨ before.getLast? = some '\n') (hline : '\n' ∉ line)
    (rest : List Char) :
    lines (before ++ (line ++ '\n' :: rest)) = lines before ++ line :: lines rest := by
  have hlast : lines (line ++ '\n' :: rest) = line :: lines rest := by
    rw [lines_append, lines_of_line hline]
    rfl
  rcases hbefore with rfl | hnewline
  · exact hlast
  · obtain ⟨b, rfl⟩ := List.getLast?_eq_some_iff.1 hnewline
    rw [List.append_assoc, List.singleton_append, lines_append, hlast]

/-- The lines of a text that is printed line by line. -/
theorem lines_flatMap {ls : List (List Char)} (h : ∀ line ∈ ls, '\n' ∉ line) :
    lines (ls.flatMap fun line => line ++ ['\n']) = ls := by
  induction ls with
  | nil => rfl
  | cons line ls ih =>
    rw [List.flatMap_cons, List.append_assoc, List.singleton_append, lines_append,
      lines_of_line (h line List.mem_cons_self), ih fun l hl => h l (List.mem_cons_of_mem _ hl)]
    rfl

end X64.Text
