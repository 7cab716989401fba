import X64.Proofs.Except
import X64.Proofs.Source.Immediate

/-!
# Which memory references are read

A memory reference is an optional size and a signed sum in brackets. The module says this without
the reader, from the inside out.

* Terms. `Addend.IsWritten` says which texts stand for a register or a number, and
  `addTerm_eq_ok_iff` that these are the terms that are read. `foldlM_addTerm_eq_ok_iff` adds them
  up: the registers in `registers`, the numbers in `total`.
* Sums. `IsSum` cuts a text at its signs, and `addressTerms_of_isSum` says that the reader does so
  too.
* References. `IsReferenceText` puts a size and brackets around a sum, and `reference?_eq_ok_iff`
  says that just these texts are read.

Displacements are added modulo `2 ^ 64`, so `total` is the whole sum and only congruent to what is
kept. `references_are_signed_sums` says what this means for addresses.
-/

namespace X64.Source

/-! ## Terms -/

/-- What a term of an address adds: a register, or a number with its sign. -/
inductive Addend where
  | register (r : Register)
  | number (negative : Bool) (n : Nat)
  deriving DecidableEq, Repr

/-- The text is an unsigned number: decimal digits, or hexadecimal digits after `0x`. -/
def IsLiteral (cs : List Char) (n : Nat) : Prop :=
  Text.IsNumeral 10 cs n ∨ ∃ digits, cs = '0' :: 'x' :: digits ∧ Text.IsNumeral 16 digits n

namespace Addend

/-- The register that is added. -/
def register? : Addend → Option Register
  | .register r => some r
  | .number .. => none

/-- The number that is added. -/
def value : Addend → Int
  | .register _ => 0
  | .number negative n => if negative then -n else n

/-- The text behind a sign, or in front of all signs, stands for the addend. A register is not
subtracted, and a number is below `2 ^ 64`. -/
def IsWritten (a : Addend) (negative : Bool) (text : List Char) : Prop :=
  match a with
  | .register r => negative = false ∧ text = r.name.toList
  | .number sign n => negative = sign ∧ IsLiteral text n ∧ n < UInt64.size

end Addend

/-- The registers among the terms of a sum. -/
def registers (addends : List Addend) : List Register := addends.filterMap Addend.register?

theorem registers_cons (a : Addend) (addends : List Addend) :
    registers (a :: addends) = a.register?.toList ++ registers addends := by
  cases a <;> rfl

/-- The sum of the numbers, with their signs. -/
def total : List Addend → Int
  | [] => 0
  | a :: addends => a.value + total addends

theorem total_perm {as bs : List Addend} (h : as.Perm bs) : total as = total bs := by
  induction h with
  | nil => rfl
  | cons a _ ih => rw [total, total, ih]
  | swap a b as =>
    simp only [total]
    omega
  | trans _ _ ih₁ ih₂ => exact ih₁.trans ih₂

/-- Text in lower case. -/
def Lower (cs : List Char) : Prop := ∀ c ∈ cs, c.toLower = c

instance (cs : List Char) : Decidable (Lower cs) :=
  List.decidableBAll _ cs

theorem map_toLower {cs : List Char} (h : Lower cs) : cs.map Char.toLower = cs :=
  (List.map_congr_left h).trans (List.map_id' cs)

section

variable {text : List Char} {n : Nat} {negative : Bool} {a : Addend}

/-- The first character of a number is a decimal digit. -/
theorem isDigit_of_isLiteral (h : IsLiteral text n) :
    ∃ c rest, text = c :: rest ∧ c.isDigit = true := by
  rcases h with h | ⟨digits, rfl, -⟩
  · cases text with
    | nil => exact absurd rfl h.1
    | cons c rest =>
      have hc := h.forall_mem (by decide) c List.mem_cons_self
      refine ⟨c, rest, rfl, ?_⟩
      rw [Char.isDigit_iff_toNat]
      show 48 ≤ c.toNat ∧ c.toNat ≤ 57
      omega
  · exact ⟨'0', _, rfl, by decide⟩

/-- What there is to know about the characters of a term: none is a blank or a sign, and none is a
letter of the mark behind a size. -/
theorem forall_mem_of_isWritten (h : a.IsWritten negative text) :
    text ≠ [] ∧ ∀ c ∈ text, Text.isBlank c = false ∧ isSign c = false ∧ c ≠ 't' := by
  have hcode {c : Char} (hc : 48 ≤ c.toNat ∧ c.toNat ≤ 57 ∨
      65 ≤ c.toNat ∧ c.toNat ≤ 70 ∨ 97 ≤ c.toNat ∧ c.toNat ≤ 102) :
      Text.isBlank c = false ∧ isSign c = false ∧ c ≠ 't' := by
    refine ⟨?_, ?_, ?_⟩
    · simp only [Text.isBlank, Bool.or_eq_false_iff, Bool.and_eq_false_iff,
        decide_eq_false_iff_not, beq_eq_false_iff_ne]
      omega
    · rw [isSign, Bool.or_eq_false_iff, beq_eq_false_iff_ne, beq_eq_false_iff_ne]
      constructor <;> rintro rfl <;> simp at hc
    · rintro rfl
      simp at hc
  cases a with
  | register r =>
    obtain ⟨-, rfl⟩ := h
    obtain ⟨hne, hname⟩ := Register.forall_mem_name r
    refine ⟨hne, fun c hc => ⟨isBlank_of_name (hname c hc).1, ?_, (hname c hc).2⟩⟩
    exact ((forall_mem_registerName r).2 c hc).1
  | number sign n =>
    obtain ⟨-, h, -⟩ := h
    rcases h with h | ⟨digits, rfl, h⟩
    · refine ⟨h.1, fun c hc => hcode ?_⟩
      have hdigit := h.forall_mem (by decide) c hc
      omega
    · refine ⟨by simp, fun c hc => ?_⟩
      rcases List.mem_cons.1 hc with rfl | hc
      · decide
      · rcases List.mem_cons.1 hc with rfl | hc
        · decide
        · have hdigit := h.forall_mem (by decide) c hc
          exact hcode (by omega)

theorem head?_ne_of_isSign (hsign : ∀ c ∈ text, isSign c = false) {c : Char}
    (hc : isSign c = true) : text.head? ≠ some c := by
  intro hhead
  have hnot := hsign c (List.mem_of_mem_head? hhead)
  rw [hc] at hnot
  cases hnot

/-- Without a sign, and in lower case, a magnitude is a literal below `2 ^ 64`. -/
theorem isMagnitude_iff_isLiteral (hlower : Lower text) (hsign : ∀ c ∈ text, isSign c = false)
    {m : UInt64} :
    IsMagnitude text m ↔ ∃ n, IsLiteral text n ∧ n < UInt64.size ∧ m = UInt64.ofNat n := by
  constructor
  · intro h
    obtain h | ⟨digits, hcs, h⟩ := h
    · obtain ⟨n, hn, hlt⟩ :=
        (Text.isWord_iff_of_head (head?_ne_of_isSign hsign (by decide))).1 h
      exact ⟨n, Or.inl hn, hlt⟩
    · obtain rfl | rfl := hcs
      · have hdigits : ∀ c ∈ digits, isSign c = false := fun c hc =>
          hsign c (List.mem_cons_of_mem _ (List.mem_cons_of_mem _ hc))
        obtain ⟨n, hn, hlt⟩ :=
          (Text.isWord_iff_of_head (head?_ne_of_isSign hdigits (by decide))).1 h
        exact ⟨n, Or.inr ⟨digits, rfl, hn⟩, hlt⟩
      · exact absurd (hlower 'X' (by simp)) (by decide)
  · intro ⟨n, hn, hlt, hm⟩
    obtain hn | ⟨digits, rfl, hn⟩ := hn
    · exact Or.inl ⟨text, n, Or.inl rfl, hn, hlt, hm⟩
    · exact Or.inr ⟨digits, Or.inl rfl, digits, n, Or.inl rfl, hn, hlt, hm⟩

theorem immediate?_eq_some_iff_isLiteral (hlower : Lower text)
    (hsign : ∀ c ∈ text, isSign c = false) {x : Int64} :
    immediate? text = some x ↔
      ∃ n, IsLiteral text n ∧ n < UInt64.size ∧ x = (UInt64.ofNat n).toInt64 := by
  rw [immediate?_of_head (head?_ne_of_isSign hsign (by decide))]
  simp only [Option.map_eq_some_iff, magnitude?_eq_some_iff,
    isMagnitude_iff_isLiteral hlower hsign]
  constructor
  · intro h
    obtain ⟨v, ⟨n, h, hlt, rfl⟩, rfl⟩ := h
    exact ⟨n, h, hlt, rfl⟩
  · intro h
    obtain ⟨n, h, hlt, rfl⟩ := h
    exact ⟨_, ⟨n, h, hlt, rfl⟩, rfl⟩

/-- A number is no name of a view. -/
theorem ofName?_of_isLiteral (h : IsLiteral text n) : View.ofName? text = none := by
  obtain ⟨c, rest, rfl, hc⟩ := isDigit_of_isLiteral h
  exact View.ofName?_of_isDigit hc rest

/-- The word that a number adds. -/
theorem add_ofInt_value (displacement : UInt64) (negative : Bool) (n : Nat) :
    displacement + UInt64.ofInt (Addend.number negative n).value =
      if negative then displacement - UInt64.ofNat n else displacement + UInt64.ofNat n := by
  cases negative with
  | false =>
    show displacement + UInt64.ofInt n = displacement + UInt64.ofNat n
    rw [ofInt_natCast]
  | true =>
    show displacement + UInt64.ofInt (-n) = displacement - UInt64.ofNat n
    rw [UInt64.ofInt_neg, ofInt_natCast, UInt64.sub_eq_add_neg]

theorem addTerm_of_isWritten (h : a.IsWritten negative text) (hlower : Lower text)
    {base base' : Option Register} {displacement : UInt64}
    (hbase : base'.toList = base.toList ++ a.register?.toList) :
    addTerm (base, displacement) ⟨negative, text⟩ =
      .ok (base', displacement + UInt64.ofInt a.value) := by
  obtain ⟨hne, hchars⟩ := forall_mem_of_isWritten h
  cases a with
  | register r =>
    obtain ⟨rfl, rfl⟩ := h
    have hnone : base = none ∧ base' = some r := by
      cases base <;> cases base' <;> simp_all [Addend.register?]
    obtain ⟨rfl, rfl⟩ := hnone
    have hzero : UInt64.ofInt (Addend.register r).value = 0 := rfl
    rw [addTerm_register, hzero, UInt64.add_zero]
  | number sign n =>
    obtain ⟨rfl, hliteral, hlt⟩ := h
    have hsame : base' = base := by
      cases base <;> cases base' <;> simp_all [Addend.register?]
    have himmediate : immediate? text = some (UInt64.ofNat n).toInt64 :=
      (immediate?_eq_some_iff_isLiteral hlower fun c hc => (hchars c hc).2.1).2
        ⟨n, hliteral, hlt, rfl⟩
    simp [addTerm, hne, ofName?_of_isLiteral hliteral, himmediate, add_ofInt_value, hsame]

theorem isWritten_of_addTerm (hlower : Lower text) (hsign : ∀ c ∈ text, isSign c = false)
    {base base' : Option Register} {displacement displacement' : UInt64}
    (h : addTerm (base, displacement) ⟨negative, text⟩ = .ok (base', displacement')) :
    ∃ a : Addend, a.IsWritten negative text ∧ base'.toList = base.toList ++ a.register?.toList ∧
      displacement' = displacement + UInt64.ofInt a.value := by
  unfold addTerm at h
  split at h
  · cases h
  · split at h
    · next v hv =>
      obtain ⟨name, hname, htext⟩ := View.exists_name?_of_ofName? hv
      split at h
      · cases h
      · next hwidth =>
        split at h
        · cases h
        · next hextra =>
          cases h
          obtain ⟨r, w⟩ := v
          obtain rfl : w = .qword := Decidable.not_not.1 hwidth
          obtain rfl : r.name = name := Option.some.inj hname
          simp only [Bool.or_eq_true, not_or, Bool.not_eq_true, Option.isSome_eq_false_iff,
            Option.isNone_iff_eq_none] at hextra
          obtain ⟨rfl, rfl⟩ := hextra
          rw [map_toLower hlower] at htext
          exact ⟨.register r, ⟨rfl, htext⟩, rfl, (UInt64.add_zero _).symm⟩
    · split at h
      · next x hx =>
        cases h
        obtain ⟨n, hliteral, hlt, rfl⟩ := (immediate?_eq_some_iff_isLiteral hlower hsign).1 hx
        refine ⟨.number negative n, ⟨rfl, hliteral, hlt⟩, by simp [Addend.register?], ?_⟩
        rw [add_ofInt_value, UInt64.toUInt64_toInt64]
      · cases h

end

/-- The first part of a list with at most one element has at most one. -/
theorem exists_toList_of_append {α : Type} {o : Option α} {xs ys : List α}
    (h : o.toList = xs ++ ys) : ∃ first : Option α, first.toList = xs := by
  cases xs with
  | nil => exact ⟨none, rfl⟩
  | cons x xs =>
    cases o with
    | none => cases h
    | some y =>
      obtain ⟨rfl, hnil⟩ := List.cons.inj h
      obtain ⟨rfl, -⟩ := List.append_eq_nil_iff.1 hnil.symm
      exact ⟨some y, rfl⟩

/-- The terms are read if each of them stands for an addend and at most one of these is a register.
Then the register is the base, and the numbers are added up modulo `2 ^ 64`. -/
theorem foldlM_addTerm_eq_ok_iff {ts : List Term} (hlower : ∀ t ∈ ts, Lower t.text)
    (hsign : ∀ t ∈ ts, ∀ c ∈ t.text, isSign c = false) {base base' : Option Register}
    {displacement displacement' : UInt64} :
    ts.foldlM addTerm (base, displacement) = .ok (base', displacement') ↔
      ∃ addends, List.Forall₂ (fun t a => a.IsWritten t.negative t.text) ts addends ∧
        base'.toList = base.toList ++ registers addends ∧
        displacement' = displacement + UInt64.ofInt (total addends) := by
  induction ts generalizing base displacement with
  | nil =>
    have hinj : base' = base ↔ base'.toList = base.toList := by
      cases base <;> cases base' <;> simp
    have hzero : UInt64.ofInt (total []) = 0 := rfl
    simp [pure, Except.pure, registers, hzero, hinj, @eq_comm _ base, @eq_comm _ displacement]
  | cons t ts ih =>
    obtain ⟨hlowerHead, hlower⟩ := List.forall_mem_cons.1 hlower
    obtain ⟨hsignHead, hsign⟩ := List.forall_mem_cons.1 hsign
    rw [List.foldlM_cons, bind_eq_ok_iff]
    constructor
    · intro ⟨⟨middle, word⟩, hfirst, hrest⟩
      obtain ⟨a, ha, hmiddle, rfl⟩ := isWritten_of_addTerm hlowerHead hsignHead hfirst
      obtain ⟨addends, haddends, hbase, rfl⟩ := (ih hlower hsign).1 hrest
      refine ⟨a :: addends, .cons ha haddends, ?_, ?_⟩
      · rw [hbase, hmiddle, registers_cons, List.append_assoc]
      · rw [total, UInt64.ofInt_add, UInt64.add_assoc]
    · intro h
      obtain ⟨_, hall, hbase, rfl⟩ := h
      obtain ⟨a, addends, ha, haddends, rfl⟩ := List.forall₂_cons_left_iff.1 hall
      rw [registers_cons, ← List.append_assoc] at hbase
      -- There is at most one register in all, so there is at most one up to here.
      obtain ⟨middle, hmiddle⟩ := exists_toList_of_append hbase
      refine ⟨(middle, _), addTerm_of_isWritten ha hlowerHead hmiddle, (ih hlower hsign).2 ?_⟩
      refine ⟨addends, haddends, by rw [hmiddle, hbase], ?_⟩
      rw [total, UInt64.ofInt_add, UInt64.add_assoc]

/-! ## Sums -/

/-- A term with its sign in front. -/
def Term.spell (t : Term) : List Char := (if t.negative then '-' else '+') :: t.text

/-- The term without the blanks around it. -/
def Term.trim (t : Term) : Term := { t with text := Text.trim t.text }

/-- The text is a sum of terms. The first one may have no sign, and blanks may stand in front of
one that has. -/
inductive IsSum : List Char → List Term → Prop
  | unsigned (first : List Char) (ts : List Term) :
      IsSum (first ++ ts.flatMap Term.spell) (⟨false, first⟩ :: ts)
  | signed {pad : List Char} (hpad : Text.Blanks pad) (t : Term) (ts : List Term) :
      IsSum (pad ++ (t :: ts).flatMap Term.spell) (t :: ts)

theorem isSign_of_isBlank {c : Char} (h : Text.isBlank c = true) : isSign c = false := by
  rw [isSign, Bool.or_eq_false_iff, beq_eq_false_iff_ne, beq_eq_false_iff_ne]
  constructor <;> rintro rfl <;> exact absurd h (by decide)

theorem cutSigns_spell {first : List Char} {ts : List Term} (hfirst : ∀ c ∈ first, isSign c = false)
    (hts : ∀ t ∈ ts, ∀ c ∈ t.text, isSign c = false) :
    cutSigns (first ++ ts.flatMap Term.spell) = (first, ts) := by
  induction ts generalizing first with
  | nil =>
    rw [List.flatMap_nil, List.append_nil]
    exact cutSigns_of_forall hfirst
  | cons t ts ih =>
    obtain ⟨htext, hrest⟩ := List.forall_mem_cons.1 hts
    obtain ⟨negative, text⟩ := t
    have hsign : isSign (if negative then '-' else '+') = true := by cases negative <;> rfl
    have hnegative : ((if negative then '-' else '+') == '-') = negative := by
      cases negative <;> rfl
    rw [List.flatMap_cons, Term.spell, List.cons_append, cutSigns_append hfirst,
      cutSigns_cons hsign, ih htext hrest, hnegative, List.append_nil]

theorem spell_cutSigns (cs : List Char) :
    cs = (cutSigns cs).1 ++ (cutSigns cs).2.flatMap Term.spell ∧
      (∀ c ∈ (cutSigns cs).1, isSign c = false) ∧
        ∀ t ∈ (cutSigns cs).2, ∀ c ∈ t.text, isSign c = false := by
  induction cs with
  | nil => simp [cutSigns]
  | cons c cs ih =>
    obtain ⟨hcs, hfirst, hts⟩ := ih
    cases hc : isSign c with
    | true =>
      have hsign : (if c == '-' then '-' else '+') = c := by
        rcases Bool.or_eq_true_iff.1 hc with h | h <;> obtain rfl := eq_of_beq h <;> rfl
      rw [cutSigns_cons hc, List.flatMap_cons, Term.spell, hsign, List.nil_append,
        List.cons_append, ← hcs]
      exact ⟨rfl, by simp, List.forall_mem_cons.2 ⟨hfirst, hts⟩⟩
    | false =>
      have hcut := cutSigns_append (List.forall_mem_singleton.2 hc) cs
      rw [List.singleton_append, List.singleton_append] at hcut
      rw [hcut, List.cons_append, ← hcs]
      exact ⟨rfl, List.forall_mem_cons.2 ⟨hc, hfirst⟩, hts⟩

/-- A text that is blank in front of the first sign has no term there. -/
theorem addressTerms_spell {first : List Char} {ts : List Term}
    (hfirst : ∀ c ∈ first, isSign c = false) (hts : ∀ t ∈ ts, ∀ c ∈ t.text, isSign c = false) :
    addressTerms (first ++ ts.flatMap Term.spell) =
      if Text.trim first = [] ∧ ts ≠ [] then ts.map Term.trim
      else (⟨false, first⟩ :: ts).map Term.trim := by
  have hempty : ((Text.trim first).isEmpty && !(ts.map Term.trim).isEmpty) = true ↔
      Text.trim first = [] ∧ ts ≠ [] := by simp
  rw [addressTerms, cutSigns_spell hfirst hts]
  show (if (Text.trim first).isEmpty && !(ts.map Term.trim).isEmpty then ts.map Term.trim
    else (⟨false, first⟩ :: ts).map Term.trim) = _
  simp only [hempty]

/-- The terms of a sum are found again if all of them have some text. -/
theorem addressTerms_of_isSum {cs : List Char} {ts : List Term} (h : IsSum cs ts)
    (hts : ∀ t ∈ ts, Text.trim t.text ≠ [] ∧ ∀ c ∈ t.text, isSign c = false) :
    addressTerms cs = ts.map Term.trim := by
  cases h with
  | unsigned first ts =>
    obtain ⟨⟨hne, hfirst⟩, hrest⟩ := List.forall_mem_cons.1 hts
    rw [addressTerms_spell hfirst fun t ht => (hrest t ht).2, if_neg fun h => hne h.1]
  | @signed pad hpad t ts =>
    have hblank : Text.trim pad = [] := Text.trim_of_blanks hpad
    rw [addressTerms_spell (fun c hc => isSign_of_isBlank (hpad c hc)) fun t ht => (hts t ht).2,
      if_pos ⟨hblank, by simp⟩]

/-- Every text is the sum of the terms that it is cut into. -/
theorem isSum_addressTerms (cs : List Char) :
    ∃ ts, IsSum cs ts ∧ addressTerms cs = ts.map Term.trim ∧
      ∀ t ∈ ts, ∀ c ∈ t.text, isSign c = false := by
  obtain ⟨hcs, hfirst, hts⟩ := spell_cutSigns cs
  have hterms := addressTerms_spell hfirst hts
  rw [← hcs] at hterms
  split at hterms
  · next h =>
    obtain ⟨hblank, hne⟩ := h
    obtain ⟨t, ts, heq⟩ := List.exists_cons_of_ne_nil hne
    have hsum := IsSum.signed (Text.blanks_of_trim hblank) t ts
    rw [← heq, ← hcs] at hsum
    exact ⟨_, hsum, hterms, hts⟩
  · have hsum := IsSum.unsigned (cutSigns cs).1 (cutSigns cs).2
    rw [← hcs] at hsum
    exact ⟨_, hsum, hterms, List.forall_mem_cons.2 ⟨hfirst, hts⟩⟩

section

variable {cs : List Char} {ts : List Term} {addends : List Addend}

theorem mem_spell {c : Char} {t : Term} :
    c ∈ t.spell ↔ c = (if t.negative then '-' else '+') ∨ c ∈ t.text :=
  List.mem_cons

theorem mem_of_isSum (h : IsSum cs ts) {t : Term} (ht : t ∈ ts) {c : Char} (hc : c ∈ t.text) :
    c ∈ cs := by
  have hspell {ts : List Term} (ht : t ∈ ts) : c ∈ ts.flatMap Term.spell :=
    List.mem_flatMap.2 ⟨t, ht, mem_spell.2 (Or.inr hc)⟩
  cases h with
  | unsigned first ts =>
    rcases List.mem_cons.1 ht with rfl | ht
    · exact List.mem_append_left _ hc
    · exact List.mem_append_right _ (hspell ht)
  | signed hpad t' ts => exact List.mem_append_right _ (hspell ht)

/-- The characters of a sum are blanks, signs and those of its terms. -/
theorem cases_of_mem_isSum (h : IsSum cs ts) {c : Char} (hc : c ∈ cs) :
    Text.isBlank c = true ∨ isSign c = true ∨ ∃ t ∈ ts, c ∈ t.text := by
  have hspell {ts : List Term} (hc : c ∈ ts.flatMap Term.spell) :
      isSign c = true ∨ ∃ t ∈ ts, c ∈ t.text := by
    obtain ⟨t, ht, hc⟩ := List.mem_flatMap.1 hc
    rcases mem_spell.1 hc with rfl | hc
    · refine Or.inl ?_
      split <;> rfl
    · exact Or.inr ⟨t, ht, hc⟩
  cases h with
  | unsigned first ts =>
    rcases List.mem_append.1 hc with hc | hc
    · exact Or.inr (Or.inr ⟨_, List.mem_cons_self, hc⟩)
    · refine Or.inr ((hspell hc).imp_right fun ⟨t, ht, hc⟩ => ⟨t, List.mem_cons_of_mem _ ht, hc⟩)
  | signed hpad t ts =>
    rcases List.mem_append.1 hc with hc | hc
    · exact Or.inl (hpad c hc)
    · exact Or.inr (hspell hc)

/-- The terms are read as the addends. -/
def AreWritten (ts : List Term) (addends : List Addend) : Prop :=
  List.Forall₂ (fun t a => a.IsWritten t.negative (Text.trim t.text)) ts addends

theorem AreWritten.exists_isWritten (h : AreWritten ts addends) :
    ∀ t ∈ ts, ∃ a : Addend, a.IsWritten t.negative (Text.trim t.text) := by
  induction h with
  | nil => simp
  | cons ha _ ih => exact List.forall_mem_cons.2 ⟨⟨_, ha⟩, ih⟩

/-- The characters of terms that are written, blanks included. -/
theorem AreWritten.forall_mem (h : AreWritten ts addends) :
    ∀ t ∈ ts, Text.trim t.text ≠ [] ∧ ∀ c ∈ t.text, isSign c = false ∧ c ≠ 't' := by
  intro t ht
  obtain ⟨a, ha⟩ := h.exists_isWritten t ht
  obtain ⟨hne, hchars⟩ := forall_mem_of_isWritten ha
  refine ⟨hne, fun c hc => ?_⟩
  rcases Text.isBlank_or_mem_trim hc with hblank | hc
  · refine ⟨isSign_of_isBlank hblank, ?_⟩
    rintro rfl
    exact absurd hblank (by decide)
  · exact (hchars c hc).2

/-- A sum is read as what its terms add up to. -/
theorem foldlM_addressTerms_eq_ok_iff (hlower : Lower cs) {base : Option Register}
    {displacement : UInt64} :
    (addressTerms cs).foldlM addTerm (none, 0) = .ok (base, displacement) ↔
      ∃ ts addends, IsSum cs ts ∧ AreWritten ts addends ∧ base.toList = registers addends ∧
        displacement = UInt64.ofInt (total addends) := by
  have hread {ts : List Term} (hsum : IsSum cs ts)
      (hsign : ∀ t ∈ ts, ∀ c ∈ t.text, isSign c = false) :
      (ts.map Term.trim).foldlM addTerm (none, 0) = .ok (base, displacement) ↔
        ∃ addends, AreWritten ts addends ∧ base.toList = registers addends ∧
          displacement = UInt64.ofInt (total addends) := by
    rw [foldlM_addTerm_eq_ok_iff]
    · simp only [List.forall₂_map_left_iff, Option.toList_none, List.nil_append, UInt64.zero_add]
      rfl
    · refine List.forall_mem_map.2 fun t ht c hc => ?_
      exact hlower c (mem_of_isSum hsum ht (Text.mem_of_mem_trim hc))
    · refine List.forall_mem_map.2 fun t ht c hc => ?_
      exact hsign t ht c (Text.mem_of_mem_trim hc)
  constructor
  · intro h
    obtain ⟨ts, hsum, hterms, hsign⟩ := isSum_addressTerms cs
    rw [hterms] at h
    obtain ⟨addends, haddends⟩ := (hread hsum hsign).1 h
    exact ⟨ts, addends, hsum, haddends⟩
  · intro ⟨ts, addends, hsum, hwritten, hresult⟩
    have hchars := hwritten.forall_mem
    rw [addressTerms_of_isSum hsum fun t ht =>
      ⟨(hchars t ht).1, fun c hc => ((hchars t ht).2 c hc).1⟩]
    exact (hread hsum fun t ht c hc => ((hchars t ht).2 c hc).1).2 ⟨addends, hwritten, hresult⟩

end

/-! ## References -/

/-- The text in front of the brackets: nothing, or the keyword of a width and `ptr`. -/
def IsSize (size : List Char) (width : Option Width) : Prop :=
  match width with
  | none => size = []
  | some w => ∃ gap gap', Text.Blanks gap ∧ Text.Blanks gap' ∧
      size = w.keyword.toList ++ (gap ++ ('p' :: 't' :: 'r' :: gap'))

/-- The text is a reference: up to blanks at its ends, a size and the sum of the addends in
brackets. -/
def IsReferenceText (cs : List Char) (width : Option Width) (addends : List Addend) : Prop :=
  ∃ size sum ts, Text.trim cs = size ++ '[' :: (sum ++ [']']) ∧ IsSize size width ∧ IsSum sum ts ∧
    AreWritten ts addends

/-- The reference is what the text stands for. At most one of the addends is a register, and that is
the base. The displacement is congruent to the sum of the numbers. -/
structure IsReference (cs : List Char) (addends : List Addend) (m : Reference) : Prop where
  text : IsReferenceText cs m.width addends
  base : registers addends = m.base.toList
  displacement : m.displacement.toInt % UInt64.size = total addends % UInt64.size

/-- The part between the brackets is all that they enclose. -/
theorem bracketed?_eq_some_iff {cs sum : List Char} :
    bracketed? cs = some sum ↔ cs = '[' :: (sum ++ [']']) := by
  constructor
  · intro h
    unfold bracketed? at h
    split at h
    · split at h
      · next hlast =>
        cases h
        rw [List.dropLast_append_getLast? _ hlast]
      · cases h
    · cases h
  · intro h
    rw [h]
    exact bracketed?_brackets sum

theorem keyword_ne_nil (w : Width) : w.keyword.toList ≠ [] := by
  cases w <;> decide

theorem keyword_of_ofKeyword? {keyword : String} {w : Width}
    (h : Width.ofKeyword? keyword = some w) : w.keyword = keyword := by
  simpa using List.find?_some h

/-- Reads the brackets behind a size. -/
def sumIn? (width : Option Width) (address : List Char) : Except OperandError Reference :=
  (bracketed? (Text.trim address)).elim (.error .notBracketed) fun sum =>
    ((addressTerms sum).foldlM addTerm (none, 0)).map fun r => ⟨width, r.1, r.2.toInt64⟩

theorem sumIn?_eq_ok_iff {width : Option Width} {address : List Char} {m : Reference} :
    sumIn? width address = .ok m ↔ ∃ sum, Text.trim address = '[' :: (sum ++ [']']) ∧
      (addressTerms sum).foldlM addTerm (none, 0) = .ok (m.base, m.displacement.toUInt64) ∧
        m.width = width := by
  unfold sumIn?
  simp only [← bracketed?_eq_some_iff]
  cases bracketed? (Text.trim address) with
  | none => simp
  | some sum =>
    simp only [Option.elim_some, Option.some.injEq, exists_eq_left']
    constructor
    · intro h
      cases hterms : (addressTerms sum).foldlM addTerm (none, 0) with
      | error e =>
        rw [hterms] at h
        cases h
      | ok r =>
        rw [hterms] at h
        cases h
        rw [UInt64.toUInt64_toInt64]
        exact ⟨rfl, rfl⟩
    · intro ⟨hterms, hwidth⟩
      rw [hterms, ← hwidth]
      exact congrArg (fun d => Except.ok (Reference.mk m.width m.base d))
        m.displacement.toInt64_toUInt64

/-- Without a mark there is no size. -/
theorem reference?_of_cutAt_eq_none {cs : List Char} (h : Text.cutAt ['p', 't', 'r'] cs = none) :
    reference? cs = sumIn? none cs := by
  simp only [reference?, h, pure_bind, sumIn?]
  cases bracketed? (Text.trim cs) with
  | none => rfl
  | some sum => cases (addressTerms sum).foldlM addTerm (none, 0) <;> rfl

/-- A mark stands behind the keyword of a size. -/
theorem reference?_eq_ok_iff_of_cutAt {cs size address : List Char} {m : Reference}
    (h : Text.cutAt ['p', 't', 'r'] cs = some (size, address)) :
    reference? cs = .ok m ↔
      ∃ w : Width, Text.trim size = w.keyword.toList ∧ sumIn? (some w) address = .ok m := by
  have hkeyword (w : Width) : Text.trim size = w.keyword.toList ↔
      Width.ofKeyword? (String.ofList (Text.trim size)) = some w := by
    constructor
    · intro hsize
      rw [hsize, String.ofList_toList, Width.ofKeyword?_keyword]
    · intro hw
      rw [keyword_of_ofKeyword? hw, String.toList_ofList]
  simp only [hkeyword, reference?, h]
  cases Width.ofKeyword? (String.ofList (Text.trim size)) with
  | none => simp [throw, throwThe, MonadExceptOf.throw, bind, Except.bind]
  | some w =>
    simp only [pure_bind, Option.some.injEq, exists_eq_left', sumIn?]
    cases bracketed? (Text.trim address) with
    | none => rfl
    | some sum => cases (addressTerms sum).foldlM addTerm (none, 0) <;> rfl

/-- What stands between the brackets is in lower case if the whole text is. -/
theorem lower_of_trim {cs size sum : List Char} (hlower : Lower cs)
    (hcs : Text.trim cs = size ++ '[' :: (sum ++ [']'])) : Lower sum := by
  intro c hc
  refine hlower c (Text.mem_of_mem_trim ?_)
  rw [hcs]
  simp [hc]

theorem isReference_of_reference? {cs : List Char} {m : Reference} (hlower : Lower cs)
    (h : reference? cs = .ok m) : ∃ addends, IsReference cs addends m := by
  -- The size and the brackets make up the whole text.
  obtain ⟨size, sum, hsize, hcs, hterms⟩ : ∃ size sum, IsSize size m.width ∧
      Text.trim cs = size ++ '[' :: (sum ++ [']']) ∧
        (addressTerms sum).foldlM addTerm (none, 0) = .ok (m.base, m.displacement.toUInt64) := by
    cases hcut : Text.cutAt ['p', 't', 'r'] cs with
    | none =>
      rw [reference?_of_cutAt_eq_none hcut, sumIn?_eq_ok_iff] at h
      obtain ⟨sum, htrim, hterms, hwidth⟩ := h
      rw [hwidth]
      exact ⟨[], sum, rfl, htrim, hterms⟩
    | some parts =>
      obtain ⟨size, address⟩ := parts
      obtain ⟨w, hkeyword, h⟩ := (reference?_eq_ok_iff_of_cutAt hcut).1 h
      obtain ⟨sum, htrim, hterms, hwidth⟩ := sumIn?_eq_ok_iff.1 h
      obtain ⟨pad, gap, hsize, hpad, hgap, -⟩ := Text.exists_trim size
      obtain ⟨gap', pad', haddress, hgap', hpad', -⟩ := Text.exists_trim address
      rw [hwidth]
      refine ⟨w.keyword.toList ++ (gap ++ 'p' :: 't' :: 'r' :: gap'), sum,
        ⟨gap, gap', hgap, hgap', rfl⟩, ?_, hterms⟩
      have hcs : cs = pad ++ ((w.keyword.toList ++ ((gap ++ 'p' :: 't' :: 'r' :: gap') ++
          '[' :: (sum ++ [']']))) ++ pad') := by
        rw [Text.eq_append_of_cutAt hcut, hsize, hkeyword, haddress, htrim]
        simp
      have htight := Text.Tight.append (forall_mem_keyword w).1 (tight_brackets sum)
        (keyword_ne_nil w) (by simp) (gap ++ 'p' :: 't' :: 'r' :: gap')
      rw [hcs, Text.trim_pad htight hpad hpad']
      simp
  obtain ⟨ts, addends, hsum, hwritten, hbase, hdisplacement⟩ :=
    (foldlM_addressTerms_eq_ok_iff (lower_of_trim hlower hcs)).1 hterms
  exact ⟨addends, ⟨size, sum, ts, hcs, hsize, hsum, hwritten⟩, hbase.symm,
    toUInt64_eq_ofInt_iff.1 hdisplacement⟩

theorem reference?_of_isReference {cs : List Char} {m : Reference} {addends : List Addend}
    (hlower : Lower cs) (h : IsReference cs addends m) : reference? cs = .ok m := by
  obtain ⟨size, sum, ts, htrim, hsize, hsum, hwritten⟩ := h.text
  have hterms : (addressTerms sum).foldlM addTerm (none, 0) =
      .ok (m.base, m.displacement.toUInt64) :=
    (foldlM_addressTerms_eq_ok_iff (lower_of_trim hlower htrim)).2
      ⟨ts, addends, hsum, hwritten, h.base.symm, toUInt64_eq_ofInt_iff.2 h.displacement⟩
  obtain ⟨pad, pad', hcs, hpad, hpad', -⟩ := Text.exists_trim cs
  cases hwidth : m.width with
  | none =>
    rw [hwidth] at hsize
    obtain rfl : size = [] := hsize
    have ht : 't' ∉ cs := by
      intro hmem
      rcases Text.isBlank_or_mem_trim hmem with hblank | hmem
      · exact absurd hblank (by decide)
      · have hmem : 't' ∈ sum := by simpa [htrim] using hmem
        rcases cases_of_mem_isSum hsum hmem with hblank | hsign | ⟨t, ht, hc⟩
        · exact absurd hblank (by decide)
        · exact absurd hsign (by decide)
        · exact ((hwritten.forall_mem t ht).2 't' hc).2 rfl
    rw [reference?_of_cutAt_eq_none (Text.cutAt_eq_none (by decide) ht)]
    exact sumIn?_eq_ok_iff.2 ⟨sum, htrim, hterms, hwidth⟩
  | some w =>
    rw [hwidth] at hsize
    obtain ⟨gap, gap', hgap, hgap', rfl⟩ := hsize
    have hp : 'p' ∉ pad ++ (w.keyword.toList ++ gap) := by
      intro hmem
      rcases List.mem_append.1 hmem with hmem | hmem
      · exact absurd (hpad _ hmem) (by decide)
      · rcases List.mem_append.1 hmem with hmem | hmem
        · exact absurd hmem (by cases w <;> decide)
        · exact absurd (hgap _ hmem) (by decide)
    have hcut : Text.cutAt ['p', 't', 'r'] cs = some (pad ++ (w.keyword.toList ++ gap),
        gap' ++ ('[' :: (sum ++ [']']) ++ pad')) := by
      rw [← @Text.cutAt_append 'p' ['t', 'r'] _ hp, hcs, htrim]
      simp
    refine (reference?_eq_ok_iff_of_cutAt hcut).2
      ⟨w, ?_, sumIn?_eq_ok_iff.2 ⟨sum, ?_, hterms, hwidth⟩⟩
    · exact Text.trim_pad (forall_mem_keyword w).1 hpad hgap
    · exact Text.trim_pad (tight_brackets sum) hgap' hpad'

/-- A text in lower case is read as a reference if the reference is what the text stands for. -/
theorem reference?_eq_ok_iff {cs : List Char} (hlower : Lower cs) {m : Reference} :
    reference? cs = .ok m ↔ ∃ addends, IsReference cs addends m :=
  ⟨isReference_of_reference? hlower, fun ⟨_, h⟩ => reference?_of_isReference hlower h⟩

theorem length_registers_le_one {cs : List Char} {addends : List Addend} {m : Reference}
    (h : IsReference cs addends m) : (registers addends).length ≤ 1 := by
  rw [h.base]
  cases m.base <;> simp

/-- Every sum with at most one register is that of a reference. -/
theorem exists_isReference {cs : List Char} {width : Option Width} {addends : List Addend}
    (h : IsReferenceText cs width addends) (hregisters : (registers addends).length ≤ 1) :
    ∃ m, IsReference cs addends m := by
  obtain ⟨base, hbase⟩ : ∃ base : Option Register, registers addends = base.toList := by
    cases hlist : registers addends with
    | nil => exact ⟨none, rfl⟩
    | cons r rest =>
      obtain rfl : rest = [] := by simpa [hlist] using hregisters
      exact ⟨some r, rfl⟩
  refine ⟨⟨width, base, (UInt64.ofInt (total addends)).toInt64⟩, h, hbase, ?_⟩
  exact toUInt64_eq_ofInt_iff.1 (UInt64.toUInt64_toInt64 _)

/-- The address is the base and the sum of the numbers, modulo `2 ^ 64`. -/
theorem IsReference.toNat_address {cs : List Char} {addends : List Addend} {m : Reference}
    (h : IsReference cs addends m) (s : State) :
    ((m.address s).toNat : Int) = (m.baseValue s + total addends) % UInt64.size := by
  rw [Reference.toNat_address, Int.add_emod, h.displacement, ← Int.add_emod]

/-- The order of the addends does not matter. -/
theorem IsReference.perm {cs cs' : List Char} {addends addends' : List Addend} {m : Reference}
    (h : IsReference cs addends m) (htext : IsReferenceText cs' m.width addends')
    (hperm : addends.Perm addends') : IsReference cs' addends' m where
  text := htext
  base := by
    have hregisters : (registers addends').Perm m.base.toList :=
      h.base ▸ (hperm.filterMap Addend.register?).symm
    cases hbase : m.base with
    | none =>
      rw [hbase] at hregisters
      exact hregisters.eq_nil
    | some r =>
      rw [hbase] at hregisters
      exact List.perm_singleton.1 hregisters
  displacement := by rw [h.displacement, total_perm hperm]

/-- Memory references are signed sums. A text in lower case is read as a reference exactly if it is
an optional size and a sum of addends in brackets, of which at most one is a register. The
displacement is the sum of the numbers modulo `2 ^ 64`, so the address is that of the whole sum, in
every state and in whatever order the addends are written. -/
theorem references_are_signed_sums {cs : List Char} (hlower : Lower cs) :
    ((∃ m, reference? cs = .ok m) ↔
        ∃ width addends, IsReferenceText cs width addends ∧ (registers addends).length ≤ 1) ∧
      (∀ m, reference? cs = .ok m ↔ ∃ addends, IsReference cs addends m) ∧
      ∀ m addends, IsReference cs addends m →
        (∀ s, ((m.address s).toNat : Int) = (m.baseValue s + total addends) % UInt64.size) ∧
          ∀ cs' addends', Lower cs' → IsReferenceText cs' m.width addends' →
            addends.Perm addends' → reference? cs' = .ok m := by
  refine ⟨?_, fun m => reference?_eq_ok_iff hlower, fun m addends h => ⟨h.toNat_address, ?_⟩⟩
  · constructor
    · intro ⟨m, hm⟩
      obtain ⟨addends, h⟩ := (reference?_eq_ok_iff hlower).1 hm
      exact ⟨m.width, addends, h.text, length_registers_le_one h⟩
    · intro ⟨width, addends, htext, hregisters⟩
      obtain ⟨m, h⟩ := exists_isReference htext hregisters
      exact ⟨m, (reference?_eq_ok_iff hlower).2 ⟨addends, h⟩⟩
  · intro cs' addends' hlower' htext hperm
    exact (reference?_eq_ok_iff hlower').2 ⟨addends', h.perm htext hperm⟩

/-- Eight below a register, with a leading sign. -/
def leadingSign : List Char := "byte ptr [- 8+rax]".toList

/-- The same place, in hexadecimal and in another order. -/
def registerFirst : List Char := "byte ptr[rax-0x8]".toList

theorem eight_below_register :
    reference? leadingSign = .ok ⟨some .byte, some .rax, -8⟩ ∧
      reference? registerFirst = .ok ⟨some .byte, some .rax, -8⟩ ∧
      ∀ s : State, ((Reference.address ⟨some .byte, some .rax, -8⟩ s).toNat : Int) =
        ((s.get .rax).toNat - 8) % UInt64.size := by
  have hlower : Lower leadingSign := by decide +kernel
  have hlower' : Lower registerFirst := by decide +kernel
  have height {base : Nat} (hbase : 8 < base) : Text.IsNumeral base ['8'] 8 :=
    ⟨by simp, [8], .cons ⟨hbase, by decide⟩ .nil, by simp⟩
  have htext : IsReferenceText leadingSign (some .byte) [.number true 8, .register .rax] := by
    refine ⟨"byte ptr ".toList, "- 8+rax".toList, _, by decide +kernel, ?_,
      .signed Text.blanks_nil ⟨true, " 8".toList⟩ [⟨false, "rax".toList⟩], ?_⟩
    · exact ⟨[' '], [' '], by decide, by decide, by decide +kernel⟩
    · exact .cons ⟨rfl, Or.inl (height (by decide)), by decide⟩ (.cons ⟨rfl, by decide⟩ .nil)
  have htext' : IsReferenceText registerFirst (some .byte) [.register .rax, .number true 8] := by
    refine ⟨"byte ptr".toList, "rax-0x8".toList, _, by decide +kernel, ?_,
      .unsigned "rax".toList [⟨true, "0x8".toList⟩], ?_⟩
    · exact ⟨[' '], [], by decide, by decide, by decide +kernel⟩
    · refine .cons ⟨rfl, by decide⟩ (.cons ⟨rfl, Or.inr ⟨['8'], by decide, ?_⟩, by decide⟩ .nil)
      exact height (by decide)
  have href : IsReference leadingSign [.number true 8, .register .rax]
      ⟨some .byte, some .rax, -8⟩ := ⟨htext, rfl, by decide⟩
  obtain ⟨-, hread, hsum⟩ := references_are_signed_sums hlower
  obtain ⟨haddress, hreorder⟩ := hsum _ _ href
  exact ⟨(hread _).2 ⟨_, href⟩, hreorder _ _ hlower' htext' (.swap ..), haddress⟩

end X64.Source
