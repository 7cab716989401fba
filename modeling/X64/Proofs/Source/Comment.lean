import X64.Proofs.Source.Line
import Mathlib.Algebra.Ring.Parity
import Mathlib.Data.Nat.Find

/-!
# Where a comment begins

A comment begins at the first `#` or `;` that does not stand inside a string. This module says so by
counting, without a scan.

* `quotesBefore` counts the quotes in front of a position that open or close a string, and
  `backslashesBefore` the backslashes right in front of it. A position is inside a string if the
  first number is odd (`IsQuoted`).
* `Quoting.Describes` compares the state of a scan with the two numbers. One character keeps this
  (`Quoting.Describes.next`), and so the scan is right at every position of a line
  (`describes_foldl_next`).
* `IsCut` is the position where a comment begins, or the end of the line. A line is cut off there
  (`IsCut.stripComment_eq`), whatever the comment says (`IsCut.stripComment_append`).
-/

namespace X64.Source

/-! ## Strings -/

/-- The number of backslashes right in front of a position, with nothing in between. -/
def backslashesBefore (cs : List Char) : Nat → Nat
  | 0 => 0
  | i + 1 => if cs[i]? = some '\\' then backslashesBefore cs i + 1 else 0

/-- The number of quotes in front of a position, without the escaped ones. A quote is escaped if it
stands inside a string, behind an odd number of backslashes. These belong to the same string, for
its opening quote stands in front of them. -/
def quotesBefore (cs : List Char) : Nat → Nat
  | 0 => 0
  | i + 1 =>
    if cs[i]? = some '"' ∧ ¬(Odd (quotesBefore cs i) ∧ Odd (backslashesBefore cs i)) then
      quotesBefore cs i + 1
    else quotesBefore cs i

/-- The position is inside a string. -/
def IsQuoted (cs : List Char) (i : Nat) : Prop := Odd (quotesBefore cs i)

instance (cs : List Char) (i : Nat) : Decidable (IsQuoted cs i) :=
  inferInstanceAs (Decidable (Odd _))

/-- A comment may begin at the position. -/
def StartsComment (cs : List Char) (i : Nat) : Prop :=
  (cs[i]? = some '#' ∨ cs[i]? = some ';') ∧ ¬IsQuoted cs i

instance (cs : List Char) (i : Nat) : Decidable (StartsComment cs i) :=
  inferInstanceAs (Decidable (_ ∧ _))

/-- The position where the comment of a line begins. It is the end of a line without a comment. -/
structure IsCut (cs : List Char) (n : Nat) : Prop where
  start : n = cs.length ∨ StartsComment cs n
  first : ∀ i < n, ¬StartsComment cs i

section

variable {cs : List Char} {i n : Nat} {c : Char}

/-- A quote that is not escaped opens or closes a string. -/
theorem isQuoted_succ_of_quote (h : cs[i]? = some '"')
    (hescaped : ¬(IsQuoted cs i ∧ Odd (backslashesBefore cs i))) :
    IsQuoted cs (i + 1) ↔ ¬IsQuoted cs i := by
  have hcount : quotesBefore cs (i + 1) = quotesBefore cs i + 1 := if_pos ⟨h, hescaped⟩
  rw [IsQuoted, hcount]
  exact Nat.odd_add_one

/-- Any other character, and a quote that is escaped, leaves it at that. -/
theorem isQuoted_succ_of_not
    (h : ¬(cs[i]? = some '"' ∧ ¬(IsQuoted cs i ∧ Odd (backslashesBefore cs i)))) :
    IsQuoted cs (i + 1) ↔ IsQuoted cs i := by
  have hcount : quotesBefore cs (i + 1) = quotesBefore cs i := if_neg h
  rw [IsQuoted, hcount]
  exact Iff.rfl

theorem odd_backslashesBefore_succ (h : cs[i]? = some c) :
    Odd (backslashesBefore cs (i + 1)) ↔ c = '\\' ∧ ¬Odd (backslashesBefore cs i) := by
  by_cases hc : c = '\\'
  · have hcount : backslashesBefore cs (i + 1) = backslashesBefore cs i + 1 :=
      if_pos (hc ▸ h)
    rw [hcount, Nat.odd_add_one, and_iff_right hc]
  · have hcount : backslashesBefore cs (i + 1) = 0 :=
      if_neg fun hback => hc (Option.some.inj (h.symm.trans hback))
    simp [hcount, hc]

/-! ## The scan -/

/-- What the state of a scan says about the position that it has come to. -/
def Quoting.Describes (cs : List Char) (i : Nat) : Quoting → Prop
  | .outside => ¬IsQuoted cs i
  | .inside => IsQuoted cs i ∧ ¬Odd (backslashesBefore cs i)
  | .escaped => IsQuoted cs i ∧ Odd (backslashesBefore cs i)

/-- One more character is taken into account. -/
theorem Quoting.Describes.next {q : Quoting} (hq : q.Describes cs i) (h : cs[i]? = some c) :
    (q.next c).Describes cs (i + 1) := by
  have hrun := odd_backslashesBefore_succ h
  have hquote : cs[i]? = some '"' ↔ c = '"' := by rw [h, Option.some.injEq]
  cases q with
  | outside =>
    have hout : ¬IsQuoted cs i := hq
    rw [Quoting.next]
    split
    · next hc =>
      have hin := isQuoted_succ_of_quote (hquote.2 hc) fun hescaped => hout hescaped.1
      refine ⟨hin.2 hout, fun hodd => ?_⟩
      rw [hc] at hrun
      exact absurd (hrun.1 hodd).1 (by decide)
    · next hc =>
      have hsame := isQuoted_succ_of_not fun hopen => hc (hquote.1 hopen.1)
      exact fun hin => hout (hsame.1 hin)
  | inside =>
    obtain ⟨hin, heven⟩ := hq
    rw [Quoting.next]
    split
    · next hc =>
      have hout := isQuoted_succ_of_quote (hquote.2 hc) fun hescaped => heven hescaped.2
      exact fun hstill => hout.1 hstill hin
    · next hc =>
      have hsame := isQuoted_succ_of_not fun hclose => hc (hquote.1 hclose.1)
      split
      · next hback => exact ⟨hsame.2 hin, hrun.2 ⟨hback, heven⟩⟩
      · next hback => exact ⟨hsame.2 hin, fun hodd => hback (hrun.1 hodd).1⟩
  | escaped =>
    have hsame := isQuoted_succ_of_not fun hclose => hclose.2 hq
    exact ⟨hsame.2 hq.1, fun hodd => (hrun.1 hodd).2 hq.2⟩

/-- The scan knows at every position of a line whether it is inside a string. -/
theorem describes_foldl_next (hi : i ≤ cs.length) :
    ((cs.take i).foldl Quoting.next .outside).Describes cs i := by
  induction i with
  | zero =>
    show ¬Odd 0
    decide
  | succ i ih =>
    have hc : cs[i]? = some cs[i] := List.getElem?_eq_getElem hi
    rw [List.take_add_one, hc, List.foldl_append]
    exact (ih (Nat.le_of_succ_le hi)).next hc

theorem foldl_next_eq_outside_iff (hi : i ≤ cs.length) :
    (cs.take i).foldl Quoting.next .outside = .outside ↔ ¬IsQuoted cs i := by
  have hscan := describes_foldl_next hi
  generalize (cs.take i).foldl Quoting.next .outside = q at hscan ⊢
  cases q with
  | outside => exact iff_of_true rfl hscan
  | inside => exact iff_of_false (by simp) fun hout => hout hscan.1
  | escaped => exact iff_of_false (by simp) fun hout => hout hscan.1

/-! ## The cut -/

theorem isCommentMark_iff : isCommentMark c = true ↔ c = '#' ∨ c = ';' := by
  simp [isCommentMark]

theorem startsComment_iff (h : cs[i]? = some c) :
    StartsComment cs i ↔ isCommentMark c = true ∧ ¬IsQuoted cs i := by
  rw [StartsComment, h, Option.some.injEq, Option.some.injEq, isCommentMark_iff]

theorem StartsComment.lt_length (h : StartsComment cs i) : i < cs.length := by
  by_contra hout
  have hnone : cs[i]? = none := List.getElem?_eq_none (Nat.le_of_not_lt hout)
  have hmark := h.1
  simp [hnone] at hmark

/-- Every line is cut somewhere. -/
theorem exists_isCut (cs : List Char) : ∃ n, IsCut cs n := by
  by_cases h : ∃ i, StartsComment cs i
  · exact ⟨Nat.find h, Or.inr (Nat.find_spec h), fun i hi => Nat.find_min h hi⟩
  · exact ⟨cs.length, Or.inl rfl, fun i _ hi => h ⟨i, hi⟩⟩

theorem IsCut.le_length (h : IsCut cs n) : n ≤ cs.length := by
  obtain hend | hstart := h.start
  · omega
  · have hlt := hstart.lt_length
    omega

/-- A part of a line in which no comment begins is kept. -/
theorem stripComment_take_of_forall (hn : n ≤ cs.length) (h : ∀ i < n, ¬StartsComment cs i) :
    stripComment (cs.take n) = cs.take n := by
  induction n with
  | zero => rfl
  | succ n ih =>
    have hc : cs[n]? = some cs[n] := List.getElem?_eq_getElem hn
    have hkept := ih (Nat.le_of_succ_le hn) fun i hi => h i (Nat.lt_succ_of_lt hi)
    have hmark : ¬((cs.take n).foldl Quoting.next .outside = .outside ∧
        isCommentMark cs[n] = true) := by
      rw [foldl_next_eq_outside_iff (Nat.le_of_succ_le hn), and_comm, ← startsComment_iff hc]
      exact h n (Nat.lt_succ_self n)
    rw [List.take_add_one, hc, stripComment, stripCommentFrom_append hkept]
    show _ ++ stripCommentFrom _ [cs[n]] = _
    rw [stripCommentFrom, if_neg hmark]
    rfl

theorem IsCut.stripComment_take (h : IsCut cs n) : stripComment (cs.take n) = cs.take n :=
  stripComment_take_of_forall h.le_length h.first

/-- Whatever stands behind a comment mark at the cut is cut off with it. -/
theorem IsCut.stripComment_append (h : IsCut cs n) (hlt : n < cs.length) {mark : Char}
    (hmark : isCommentMark mark = true) (rest : List Char) :
    stripComment (cs.take n ++ mark :: rest) = cs.take n := by
  have hout : ¬IsQuoted cs n := by
    obtain hend | hstart := h.start
    · omega
    · exact hstart.2
  rw [stripComment, stripCommentFrom_append h.stripComment_take,
    (foldl_next_eq_outside_iff h.le_length).2 hout]
  show _ ++ stripComment (mark :: rest) = _
  rw [stripComment_mark hmark, List.append_nil]

/-- A line is cut off where its comment begins. -/
theorem IsCut.stripComment_eq (h : IsCut cs n) : stripComment cs = cs.take n := by
  obtain hend | hstart := h.start
  · have hkept := h.stripComment_take
    rw [hend, List.take_length] at hkept
    rw [hkept, hend, List.take_length]
  · have hlt := hstart.lt_length
    have hc : cs[n]? = some cs[n] := List.getElem?_eq_getElem hlt
    have hmark := ((startsComment_iff hc).1 hstart).1
    have hcut := h.stripComment_append hlt hmark (cs.drop (n + 1))
    rwa [List.getElem_cons_drop, List.take_append_drop] at hcut

end

/-- A line loses what stands behind the first comment mark outside of its strings, and nothing else.
What is left has no comment, and neither the mark nor the text behind it has any influence on
it. -/
theorem comment_is_cut_off (cs : List Char) :
    ∃ n, IsCut cs n ∧ stripComment cs = cs.take n ∧
      stripComment (stripComment cs) = stripComment cs ∧
      (n < cs.length → ∀ mark rest, isCommentMark mark = true →
        stripComment (cs.take n ++ mark :: rest) = stripComment cs) := by
  obtain ⟨n, hn⟩ := exists_isCut cs
  refine ⟨n, hn, hn.stripComment_eq, ?_, ?_⟩
  · rw [hn.stripComment_eq, hn.stripComment_take]
  · intro hlt mark rest hmark
    rw [hn.stripComment_append hlt hmark, hn.stripComment_eq]

/-- An escaped quote does not close a string, but a quote behind two backslashes does. -/
example : IsCut "\\\"#\\\"\\\\\" ; \"".toList 9 := by
  refine ⟨Or.inr ?_, ?_⟩ <;> decide

end X64.Source
