import X64.Proofs.Source.Line
import X64.Proofs.Text.Numeral
import X64.Source.Operand

/-!
# Reading printed operands

Every operand that has a text of its own is read back from it. The module goes up the grammar.

* Names: `View.ofName?_of_name?` and `Mnemonic.ofName?_name` look a name up again, and the lemmas
  below them say which characters a name is made of, so that nothing else is taken for a name.
* Immediates: `immediate?_integer`, for every word, the least one included.
* References: a printed address has at most two terms. `addressTerms_single`, `addressTerms_signed`
  and `addressTerms_pair` are its three shapes, and `reference?_render` puts them together.
* Operands: `Fits` says which operands a mnemonic takes, and `operand?_render` reads them back.
-/

namespace X64

/-! ## Names -/

/-- A name of a view stands for that view. -/
theorem View.ofName?_of_name? {v : View} {name : String} (h : v.name? = some name) :
    ofName? name.toList = some v := by
  have htable : ∀ v ∈ all, (v.name?.all fun name => ofName? name.toList == some v) = true := by
    decide +kernel
  have hv := htable v (mem_all v)
  rw [h] at hv
  simpa using hv

/-- The names of views are made of lower-case letters and digits, with a letter in front. -/
theorem View.forall_mem_named :
    ∀ e ∈ named, (e.1.all fun c => c.isLower || c.isDigit) = true ∧
      (e.1.head?.all Char.isLower) = true := by
  decide +kernel

theorem View.mem_named_of_ofName? {cs : List Char} {v : View} (h : ofName? cs = some v) :
    (cs.map Char.toLower, v) ∈ named := by
  obtain ⟨l₁, l₂, hnamed, -⟩ := List.lookup_eq_some_iff.1 h
  rw [hnamed]
  simp

/-- A text with a character that no name has, is no name. -/
theorem View.ofName?_eq_none {cs : List Char} {c : Char} (hc : c ∈ cs)
    (hlower : c.toLower.isLower = false) (hdigit : c.toLower.isDigit = false) :
    ofName? cs = none := by
  refine Option.eq_none_iff_forall_ne_some.2 fun v hv => ?_
  have hall := (forall_mem_named _ (mem_named_of_ofName? hv)).1
  have hmem : c.toLower ∈ cs.map Char.toLower := List.mem_map_of_mem hc
  have hchar := List.all_eq_true.1 hall _ hmem
  rw [hlower, hdigit] at hchar
  exact absurd hchar (by decide)

/-- A view that is read has a name, and it is read from that. -/
theorem View.exists_name?_of_ofName? {cs : List Char} {v : View} (h : ofName? cs = some v) :
    ∃ name, v.name? = some name ∧ cs.map Char.toLower = name.toList := by
  have hmem := mem_named_of_ofName? h
  rw [named, List.mem_filterMap] at hmem
  obtain ⟨u, -, hu⟩ := hmem
  obtain ⟨name, hname, heq⟩ := Option.map_eq_some_iff.1 hu
  obtain ⟨htext, rfl⟩ := Prod.mk.inj heq
  exact ⟨name, hname, htext.symm⟩

/-- A text that begins with a digit is no name. -/
theorem View.ofName?_of_isDigit {c : Char} (hc : c.isDigit = true) (cs : List Char) :
    ofName? (c :: cs) = none := by
  refine Option.eq_none_iff_forall_ne_some.2 fun v hv => ?_
  have hhead := (forall_mem_named _ (mem_named_of_ofName? hv)).2
  have hrange := Text.toNat_of_isDigit hc
  rw [List.map_cons, Text.toLower_of_isDigit hc] at hhead
  have hlower := Text.isLower_iff_toNat.1 hhead
  omega

theorem View.ofName?_digits {cs : List Char} (h : ∀ c ∈ cs, c.isDigit = true) (hne : cs ≠ []) :
    ofName? cs = none := by
  cases cs with
  | nil => exact absurd rfl hne
  | cons c cs => exact ofName?_of_isDigit (h c List.mem_cons_self) cs

/-- The characters of the name of a whole register. No such name has a `t` in it. -/
theorem Register.forall_mem_name (r : Register) :
    r.name.toList ≠ [] ∧ ∀ c ∈ r.name.toList, (c.isLower || c.isDigit) = true ∧ c ≠ 't' := by
  have hall : r.name.toList.all (fun c => (c.isLower || c.isDigit) && c != 't') = true := by
    cases r <;> decide
  refine ⟨by cases r <;> decide, ?_⟩
  intro c hc
  simpa using List.all_eq_true.1 hall c hc

theorem Mnemonic.ofName?_name (m : Mnemonic) : ofName? m.name.toList = some m := by
  cases m with
  | jumpIf c => cases c <;> decide
  | _ => decide

theorem Mnemonic.forall_mem_name (m : Mnemonic) :
    m.name.toList ≠ [] ∧ ∀ c ∈ m.name.toList, c.isAlpha = true := by
  have hall : m.name.toList ≠ [] ∧ m.name.toList.all Char.isAlpha = true := by
    cases m with
    | jumpIf c => cases c <;> decide
    | _ => decide
  exact ⟨hall.1, List.all_eq_true.1 hall.2⟩

namespace Source

/-! ## Immediates -/

theorem magnitude?_toDigits {n : Nat} (h : n < UInt64.size) :
    magnitude? (Nat.toDigits 10 n) = some (UInt64.ofNat n) := by
  have hx : 'x' ∉ Nat.toDigits 10 n := Text.not_mem_toDigits (by decide) n
  have hX : 'X' ∉ Nat.toDigits 10 n := Text.not_mem_toDigits (by decide) n
  unfold magnitude?
  split
  · next heq => exact absurd (by simp [heq]) hx
  · next heq => exact absurd (by simp [heq]) hX
  · exact Text.word?_toDigits h

theorem immediate?_toDigits {n : Nat} (h : n < UInt64.size) :
    immediate? (Nat.toDigits 10 n) = some (UInt64.ofNat n).toInt64 := by
  have hminus : '-' ∉ Nat.toDigits 10 n := Text.not_mem_toDigits (by decide) n
  unfold immediate?
  split
  · next heq => exact absurd (by simp [heq]) hminus
  · rw [magnitude?_toDigits h]
    rfl

theorem immediate?_minus_toDigits {n : Nat} (h : n < UInt64.size) :
    immediate? ('-' :: Nat.toDigits 10 n) = some (-UInt64.ofNat n).toInt64 := by
  have hhead : ∀ c ∈ (Nat.toDigits 10 n).head?, Text.isBlank c = false := by
    intro c hc
    have hdigit : c.isDigit = true :=
      Nat.isDigit_of_mem_toDigits (by decide) (by decide) (List.mem_of_mem_head? hc)
    exact Text.isBlank_of_isDigit hdigit
  rw [immediate?, Text.trimStart_of_head hhead, magnitude?_toDigits h]
  rfl

theorem natAbs_toInt_lt (x : Int64) : x.toInt.natAbs < UInt64.size := by
  have hlo := x.le_toInt
  have hhi := x.toInt_lt
  have hsize : UInt64.size = 2 ^ 64 := rfl
  omega

theorem toInt64_ofNat_natAbs {x : Int64} (h : 0 ≤ x.toInt) :
    (UInt64.ofNat x.toInt.natAbs).toInt64 = x := by
  rw [UInt64.toInt64_ofNat', ← Int64.ofInt_eq_ofNat, Int.natAbs_of_nonneg h, Int64.ofInt_toInt]

theorem toInt64_neg_ofNat_natAbs {x : Int64} (h : x.toInt < 0) :
    (-UInt64.ofNat x.toInt.natAbs).toInt64 = x := by
  rw [UInt64.toInt64_neg, UInt64.toInt64_ofNat', ← Int64.ofInt_eq_ofNat,
    Int.ofNat_natAbs_of_nonpos (by omega), Int64.ofInt_neg, Int64.neg_neg, Int64.ofInt_toInt]

/-- The characters of a printed integer. -/
theorem toList_integer (i : Int) :
    (Text.integer i).toList =
      if i < 0 then '-' :: Nat.toDigits 10 i.natAbs else Nat.toDigits 10 i.natAbs := by
  unfold Text.integer Text.decimal
  split <;> simp

/-- Every word is read back from its decimal numeral. -/
theorem immediate?_integer (x : Int64) : immediate? (Text.integer x.toInt).toList = some x := by
  rw [toList_integer]
  split
  · next h => rw [immediate?_minus_toDigits (natAbs_toInt_lt x), toInt64_neg_ofNat_natAbs h]
  · next h =>
    rw [immediate?_toDigits (natAbs_toInt_lt x), toInt64_ofNat_natAbs (by omega)]

/-! ## Sums of terms -/

/-- Whether a character is a sign between the terms of a sum. -/
def isSign (c : Char) : Bool := c == '+' || c == '-'

theorem cutSigns_append {text : List Char} (h : ∀ c ∈ text, isSign c = false) (rest : List Char) :
    cutSigns (text ++ rest) = (text ++ (cutSigns rest).1, (cutSigns rest).2) := by
  induction text with
  | nil => rfl
  | cons c text ih =>
    have hc : ¬(c = '+' ∨ c = '-') := by simpa [isSign] using h c List.mem_cons_self
    rw [List.cons_append, cutSigns, ih fun d hd => h d (List.mem_cons_of_mem _ hd)]
    exact if_neg hc

theorem cutSigns_of_forall {text : List Char} (h : ∀ c ∈ text, isSign c = false) :
    cutSigns text = (text, []) := by
  have hcut := cutSigns_append h []
  rw [List.append_nil] at hcut
  simpa [cutSigns] using hcut

theorem cutSigns_cons {c : Char} (hc : isSign c = true) (rest : List Char) :
    cutSigns (c :: rest) = ([], ⟨c == '-', (cutSigns rest).1⟩ :: (cutSigns rest).2) := by
  have hc' : c = '+' ∨ c = '-' := by simpa [isSign] using hc
  rw [cutSigns]
  exact if_pos hc'

theorem addressTerms_single {text : List Char} (h : ∀ c ∈ text, isSign c = false)
    (htight : Text.Tight text) : addressTerms text = [⟨false, text⟩] := by
  simp [addressTerms, cutSigns_of_forall h, Text.trim_of_tight htight]

theorem addressTerms_signed {c : Char} {text : List Char} (hc : isSign c = true)
    (h : ∀ c ∈ text, isSign c = false) (htight : Text.Tight text) :
    addressTerms (c :: text) = [⟨c == '-', text⟩] := by
  have hnil : Text.trim [] = [] := rfl
  simp [addressTerms, cutSigns_cons hc, cutSigns_of_forall h, Text.trim_of_tight htight, hnil]

theorem addressTerms_pair {c : Char} {first second : List Char} (hc : isSign c = true)
    (hfirst : ∀ c ∈ first, isSign c = false) (hne : first ≠ []) (hfirstTight : Text.Tight first)
    (hsecond : ∀ c ∈ second, isSign c = false) (hsecondTight : Text.Tight second) :
    addressTerms (first ++ ' ' :: c :: ' ' :: second) =
      [⟨false, first⟩, ⟨c == '-', second⟩] := by
  have hblank : Text.Blanks [' '] := by decide
  have hcut : cutSigns (first ++ ' ' :: c :: ' ' :: second) =
      (first ++ [' '], [⟨c == '-', ' ' :: second⟩]) := by
    have hspace : cutSigns (' ' :: second) = (' ' :: second, []) := by
      refine cutSigns_of_forall fun d hd => ?_
      rcases List.mem_cons.1 hd with rfl | hd
      · decide
      · exact hsecond d hd
    have hsign : cutSigns (' ' :: c :: ' ' :: second) = ([' '], [⟨c == '-', ' ' :: second⟩]) := by
      have hone : ∀ d ∈ [' '], isSign d = false := List.forall_mem_singleton.2 (by decide)
      have happend := cutSigns_append hone (c :: ' ' :: second)
      rw [List.singleton_append] at happend
      rw [happend, cutSigns_cons hc, hspace, List.append_nil]
    rw [cutSigns_append hfirst, hsign]
  have htrimFirst : Text.trim (first ++ [' ']) = first := by
    have hpad := Text.trim_pad hfirstTight Text.blanks_nil hblank
    rwa [List.nil_append] at hpad
  have htrimSecond : Text.trim (' ' :: second) = second := by
    have hpad := Text.trim_pad hsecondTight hblank Text.blanks_nil
    rwa [List.append_nil] at hpad
  simp [addressTerms, hcut, htrimFirst, htrimSecond, hne]

theorem addTerm_register (r : Register) (displacement : UInt64) :
    addTerm (none, displacement) ⟨false, r.name.toList⟩ = .ok (some r, displacement) := by
  have hview : View.ofName? r.name.toList = some ⟨r, .qword⟩ := View.ofName?_of_name? rfl
  have hne : r.name.toList.isEmpty = false := by simpa using (Register.forall_mem_name r).1
  simp [addTerm, hne, hview]

theorem addTerm_toDigits {n : Nat} (h : n < UInt64.size) (base : Option Register)
    (displacement : UInt64) (negative : Bool) :
    addTerm (base, displacement) ⟨negative, Nat.toDigits 10 n⟩ =
      .ok (base,
        if negative then displacement - UInt64.ofNat n else displacement + UInt64.ofNat n) := by
  have hview : View.ofName? (Nat.toDigits 10 n) = none :=
    View.ofName?_digits (fun c hc => Nat.isDigit_of_mem_toDigits (by decide) (by decide) hc)
      Nat.toDigits_ne_nil
  have hne : (Nat.toDigits 10 n).isEmpty = false := by simp [Nat.toDigits_ne_nil]
  simp [addTerm, hne, hview, immediate?_toDigits h]

/-! ## References -/

/-- The characters of the text of a value: those of names and numerals, and those around them. -/
def isValueChar (c : Char) : Bool :=
  c.isLower || c.isDigit || c == ' ' || c == '[' || c == ']' || isSign c

theorem isValueChar_of_isDigit {c : Char} (h : c.isDigit = true) : isValueChar c = true := by
  simp [isValueChar, h]

theorem isSign_of_isDigit {c : Char} (h : c.isDigit = true) : isSign c = false := by
  have hrange := Text.toNat_of_isDigit h
  have hplus : c ≠ '+' := by
    intro heq
    subst heq
    exact absurd h (by decide)
  have hminus : c ≠ '-' := by
    intro heq
    subst heq
    exact absurd h (by decide)
  simp [isSign, hplus, hminus]

/-- What there is to know about the digits of a number as a term. -/
theorem forall_mem_toDigits (n : Nat) :
    Text.Tight (Nat.toDigits 10 n) ∧ ∀ c ∈ Nat.toDigits 10 n,
      isSign c = false ∧ isValueChar c = true ∧ c ≠ 't' := by
  have hdigit : ∀ c ∈ Nat.toDigits 10 n, c.isDigit = true := fun c hc =>
    Nat.isDigit_of_mem_toDigits (by decide) (by decide) hc
  refine ⟨Text.Tight.of_forall fun c hc => Text.isBlank_of_isDigit (hdigit c hc), ?_⟩
  intro c hc
  refine ⟨isSign_of_isDigit (hdigit c hc), isValueChar_of_isDigit (hdigit c hc), ?_⟩
  intro heq
  subst heq
  exact absurd (hdigit _ hc) (by decide)

/-- What there is to know about the name of a whole register as a term. -/
theorem forall_mem_registerName (r : Register) :
    Text.Tight r.name.toList ∧ ∀ c ∈ r.name.toList,
      isSign c = false ∧ isValueChar c = true ∧ c ≠ 't' := by
  have hall : r.name.toList.all
      (fun c => !Text.isBlank c && (!isSign c && (isValueChar c && c != 't'))) = true := by
    cases r <;> decide
  have hchar : ∀ c ∈ r.name.toList,
      Text.isBlank c = false ∧ isSign c = false ∧ isValueChar c = true ∧ c ≠ 't' := by
    intro c hc
    simpa using List.all_eq_true.1 hall c hc
  exact ⟨Text.Tight.of_forall fun c hc => (hchar c hc).1, fun c hc => (hchar c hc).2⟩

/-- The sum that is printed between the brackets of a reference. -/
theorem toList_renderSum (m : Reference) :
    m.renderSum.toList =
      match m.base with
      | none => (Text.integer m.displacement.toInt).toList
      | some r =>
        if m.displacement.toInt = 0 then r.name.toList
        else r.name.toList ++ ' ' :: (if m.displacement.toInt < 0 then '-' else '+') :: ' ' ::
          Nat.toDigits 10 m.displacement.toInt.natAbs := by
  unfold Reference.renderSum Text.decimal
  cases m.base with
  | none => rfl
  | some r =>
    simp only
    split
    · rfl
    · split <;> simp

theorem forall_mem_renderSum (m : Reference) :
    ∀ c ∈ m.renderSum.toList, isValueChar c = true ∧ c ≠ 't' := by
  have hdigits := (forall_mem_toDigits m.displacement.toInt.natAbs).2
  rw [toList_renderSum]
  intro c hc
  split at hc
  · rw [toList_integer] at hc
    split at hc
    · rcases List.mem_cons.1 hc with rfl | hc
      · decide
      · exact (hdigits c hc).2
    · exact (hdigits c hc).2
  · next r _ =>
    have hname := (forall_mem_registerName r).2
    split at hc
    · exact (hname c hc).2
    · rcases List.mem_append.1 hc with hc | hc
      · exact (hname c hc).2
      · simp only [List.mem_cons] at hc
        rcases hc with rfl | rfl | rfl | hc
        · decide
        · split <;> decide
        · decide
        · exact (hdigits c hc).2

theorem toUInt64_of_nonneg {x : Int64} (h : 0 ≤ x.toInt) :
    UInt64.ofNat x.toInt.natAbs = x.toUInt64 := by
  rw [← UInt64.toUInt64_toInt64 (UInt64.ofNat _), toInt64_ofNat_natAbs h]

theorem toUInt64_of_neg {x : Int64} (h : x.toInt < 0) :
    -UInt64.ofNat x.toInt.natAbs = x.toUInt64 := by
  rw [← UInt64.toUInt64_toInt64 (-UInt64.ofNat _), toInt64_neg_ofNat_natAbs h]

/-- The terms of a printed sum add up to the base and the displacement that it was printed from. -/
theorem foldlM_addTerm_renderSum (m : Reference) :
    (addressTerms m.renderSum.toList).foldlM addTerm (none, 0) =
      .ok (m.base, m.displacement.toUInt64) := by
  obtain ⟨hdigitsTight, hdigits⟩ := forall_mem_toDigits m.displacement.toInt.natAbs
  have hsize := natAbs_toInt_lt m.displacement
  rw [toList_renderSum]
  cases m.base with
  | none =>
    simp only [toList_integer]
    split
    · next hneg =>
      rw [addressTerms_signed (by decide) (fun c hc => (hdigits c hc).1) hdigitsTight,
        List.foldlM_cons, addTerm_toDigits hsize]
      simp only [UInt64.zero_sub, toUInt64_of_neg hneg]
      rfl
    · next hneg =>
      rw [addressTerms_single (fun c hc => (hdigits c hc).1) hdigitsTight, List.foldlM_cons,
        addTerm_toDigits hsize]
      simp [toUInt64_of_nonneg (Int.not_lt.1 hneg)]
  | some r =>
    obtain ⟨hnameTight, hname⟩ := forall_mem_registerName r
    simp only
    split
    · next hzero =>
      have hdisplacement : m.displacement = 0 := by
        rw [← Int64.ofInt_toInt m.displacement, hzero]
        rfl
      rw [addressTerms_single (fun c hc => (hname c hc).1) hnameTight, List.foldlM_cons,
        addTerm_register, hdisplacement]
      rfl
    · have hsign : isSign (if m.displacement.toInt < 0 then '-' else '+') = true := by
        split <;> decide
      rw [addressTerms_pair hsign (fun c hc => (hname c hc).1) (Register.forall_mem_name r).1
        hnameTight (fun c hc => (hdigits c hc).1) hdigitsTight, List.foldlM_cons,
        addTerm_register]
      change (addTerm (some r, 0) _ >>= pure) = _
      rw [addTerm_toDigits hsize]
      by_cases hneg : m.displacement.toInt < 0
      · simp only [hneg, if_true, beq_self_eq_true, UInt64.zero_sub, toUInt64_of_neg hneg]
        rfl
      · simp [hneg, toUInt64_of_nonneg (Int.not_lt.1 hneg)]

/-- The characters of a printed reference. -/
theorem toList_render (m : Reference) :
    m.render.toList =
      (match m.width with
        | some w => w.keyword.toList ++ [' ', 'p', 't', 'r', ' ']
        | none => []) ++ '[' :: (m.renderSum.toList ++ [']']) := by
  unfold Reference.render
  cases m.width <;> simp

theorem forall_mem_keyword (w : Width) :
    Text.Tight w.keyword.toList ∧ ∀ c ∈ w.keyword.toList, isValueChar c = true := by
  have hall : w.keyword.toList.all (fun c => !Text.isBlank c && isValueChar c) = true := by
    cases w <;> decide
  have hchar : ∀ c ∈ w.keyword.toList, Text.isBlank c = false ∧ isValueChar c = true := by
    intro c hc
    simpa using List.all_eq_true.1 hall c hc
  exact ⟨Text.Tight.of_forall fun c hc => (hchar c hc).1, fun c hc => (hchar c hc).2⟩

theorem forall_mem_render (m : Reference) : ∀ c ∈ m.render.toList, isValueChar c = true := by
  rw [toList_render]
  intro c hc
  simp only [List.mem_append, List.mem_cons, List.not_mem_nil, or_false] at hc
  rcases hc with hc | rfl | hc | rfl
  · split at hc
    · next w _ =>
      rcases List.mem_append.1 hc with hc | hc
      · exact (forall_mem_keyword w).2 c hc
      · have hptr : [' ', 'p', 't', 'r', ' '].all isValueChar = true := by decide
        exact List.all_eq_true.1 hptr c hc
    · simp at hc
  · decide
  · exact (forall_mem_renderSum m c hc).1
  · decide

/-- The size in front of a printed reference ends at its `ptr`. -/
theorem cutAt_keyword (w : Width) (rest : List Char) :
    Text.cutAt ['p', 't', 'r'] (w.keyword.toList ++ [' ', 'p', 't', 'r', ' '] ++ rest) =
      some (w.keyword.toList ++ [' '], ' ' :: rest) := by
  cases w <;> rfl

theorem bracketed?_brackets (cs : List Char) : bracketed? ('[' :: (cs ++ [']'])) = some cs := by
  simp [bracketed?]

theorem tight_brackets (cs : List Char) : Text.Tight ('[' :: (cs ++ [']'])) where
  head c hc := by
    obtain rfl : c = '[' := by simpa using hc.symm
    decide
  last c hc := by
    rw [← List.cons_append, List.getLast?_concat] at hc
    obtain rfl : c = ']' := by simpa using hc.symm
    decide

/-- A reference without a size is read from the sum in its brackets. -/
theorem reference?_unsized {cs sum : List Char} {base : Option Register} {displacement : UInt64}
    (hcut : Text.cutAt ['p', 't', 'r'] cs = none) (hsum : bracketed? (Text.trim cs) = some sum)
    (hterms : (addressTerms sum).foldlM addTerm (none, 0) = .ok (base, displacement)) :
    reference? cs = .ok ⟨none, base, displacement.toInt64⟩ := by
  simp only [reference?, hcut, pure_bind, hsum, hterms]
  rfl

/-- A reference with a size is read from the size and from the sum in its brackets. -/
theorem reference?_sized {cs size address sum : List Char} {w : Width} {base : Option Register}
    {displacement : UInt64} (hcut : Text.cutAt ['p', 't', 'r'] cs = some (size, address))
    (hsize : Width.ofKeyword? (String.ofList (Text.trim size)) = some w)
    (hsum : bracketed? (Text.trim address) = some sum)
    (hterms : (addressTerms sum).foldlM addTerm (none, 0) = .ok (base, displacement)) :
    reference? cs = .ok ⟨some w, base, displacement.toInt64⟩ := by
  simp only [reference?, hcut, hsize, pure_bind, hsum, hterms]
  rfl

/-- A reference is read back from its text. -/
theorem reference?_render (m : Reference) : reference? m.render.toList = .ok m := by
  have hterms := foldlM_addTerm_renderSum m
  have htight := tight_brackets m.renderSum.toList
  have hrender := toList_render m
  cases hwidth : m.width with
  | none =>
    simp only [hwidth, List.nil_append] at hrender
    have ht : 't' ∉ m.render.toList := by
      rw [hrender]
      intro hmem
      simp only [List.mem_cons, List.mem_append, List.not_mem_nil, or_false] at hmem
      rcases hmem with hmem | hmem | hmem
      · exact absurd hmem (by decide)
      · exact (forall_mem_renderSum m _ hmem).2 rfl
      · exact absurd hmem (by decide)
    have hsum : bracketed? (Text.trim m.render.toList) = some m.renderSum.toList := by
      rw [hrender, Text.trim_of_tight htight, bracketed?_brackets]
    rw [reference?_unsized (Text.cutAt_eq_none (by decide) ht) hsum hterms,
      Int64.toInt64_toUInt64, ← hwidth]
  | some w =>
    simp only [hwidth] at hrender
    have hcut := cutAt_keyword w ('[' :: (m.renderSum.toList ++ [']']))
    rw [← hrender] at hcut
    have hblank : Text.Blanks [' '] := by decide
    have hsize : Width.ofKeyword? (String.ofList (Text.trim (w.keyword.toList ++ [' ']))) =
        some w := by
      have hpad := Text.trim_pad (forall_mem_keyword w).1 Text.blanks_nil hblank
      rw [List.nil_append] at hpad
      rw [hpad, String.ofList_toList, Width.ofKeyword?_keyword]
    have hsum : bracketed? (Text.trim (' ' :: '[' :: (m.renderSum.toList ++ [']']))) =
        some m.renderSum.toList := by
      have hpad := Text.trim_pad htight hblank Text.blanks_nil
      rw [List.append_nil] at hpad
      exact (congrArg bracketed? hpad).trans (bracketed?_brackets _)
    rw [reference?_sized hcut hsize hsum hterms, Int64.toInt64_toUInt64, ← hwidth]

/-! ## Texts of operands -/

theorem ne_of_isValueChar {c d : Char} (h : isValueChar c = true) (hd : isValueChar d = false) :
    c ≠ d := by
  intro heq
  subst heq
  rw [h] at hd
  exact absurd hd (by decide)

theorem toLower_of_isValueChar {c : Char} (h : isValueChar c = true) : c.toLower = c := by
  apply Char.toLower_eq_of_not_isUpper
  rw [Text.isUpper_iff_toNat]
  intro hupper
  simp only [isValueChar, isSign, Bool.or_eq_true, beq_iff_eq, Text.isLower_iff_toNat] at h
  rcases h with ((((h | h) | rfl) | rfl) | rfl) | rfl | rfl
  · omega
  · have hdigit := Text.toNat_of_isDigit h
    omega
  all_goals exact absurd hupper (by decide)

theorem isValueChar_of_name {c : Char} (h : (c.isLower || c.isDigit) = true) :
    isValueChar c = true := by
  simp only [isValueChar, h, Bool.true_or]

theorem isBlank_of_name {c : Char} (h : (c.isLower || c.isDigit) = true) :
    Text.isBlank c = false := by
  refine isBlank_of_isLabelRest ?_
  rcases Bool.or_eq_true_iff.1 h with h | h
  · exact isLabelRest_of_isAlpha (Text.isAlpha_iff.2 (Or.inr h))
  · simp [isLabelRest, h]

/-- What there is to know about the name of a view as an operand. -/
theorem forall_mem_viewName {v : View} {name : String} (h : v.name? = some name) :
    name.toList ≠ [] ∧ ∀ c ∈ name.toList, (c.isLower || c.isDigit) = true := by
  have hmem := View.mem_named_of_ofName? (View.ofName?_of_name? h)
  have htable : ∀ v ∈ View.all, (v.name?.all fun name => name.toList ≠ [] &&
      name.toList.all fun c => c.isLower || c.isDigit) = true := by
    decide +kernel
  have hv := htable v (View.mem_all v)
  simpa [h] using hv

theorem forall_mem_integer (i : Int) :
    (Text.integer i).toList ≠ [] ∧ ∀ c ∈ (Text.integer i).toList,
      isValueChar c = true ∧ Text.isBlank c = false ∧ c ≠ '[' := by
  have hdigits : ∀ c ∈ Nat.toDigits 10 i.natAbs,
      isValueChar c = true ∧ Text.isBlank c = false ∧ c ≠ '[' := by
    intro c hc
    have hdigit : c.isDigit = true := Nat.isDigit_of_mem_toDigits (by decide) (by decide) hc
    refine ⟨isValueChar_of_isDigit hdigit, Text.isBlank_of_isDigit hdigit, ?_⟩
    intro heq
    subst heq
    exact absurd hdigit (by decide)
  rw [toList_integer]
  split
  · refine ⟨by simp, fun c hc => ?_⟩
    rcases List.mem_cons.1 hc with rfl | hc
    · decide
    · exact hdigits c hc
  · exact ⟨Nat.toDigits_ne_nil, hdigits⟩

/-- A text that is one item of a list of operands, without a comment in it. -/
structure IsItem (cs : List Char) : Prop where
  ne_nil : cs ≠ []
  tight : Text.Tight cs
  no_comma : ',' ∉ cs
  no_newline : '\n' ∉ cs
  no_mark : ∀ c ∈ cs, isCommentMark c = false

theorem IsItem.of_isValueChar {cs : List Char} (hne : cs ≠ []) (htight : Text.Tight cs)
    (h : ∀ c ∈ cs, isValueChar c = true) : IsItem cs where
  ne_nil := hne
  tight := htight
  no_comma hmem := ne_of_isValueChar (h _ hmem) (by decide) rfl
  no_newline hmem := ne_of_isValueChar (h _ hmem) (by decide) rfl
  no_mark c hc := by
    have hhash : c ≠ '#' := ne_of_isValueChar (h c hc) (by decide)
    have hsemicolon : c ≠ ';' := ne_of_isValueChar (h c hc) (by decide)
    simp [isCommentMark, hhash, hsemicolon]

theorem IsItem.of_isLabelName {cs : List Char} (h : isLabelName cs = true) : IsItem cs where
  ne_nil := (isLabelRest_of_isLabelName h).1
  tight := Text.Tight.of_forall fun c hc =>
    isBlank_of_isLabelRest ((isLabelRest_of_isLabelName h).2 c hc)
  no_comma hmem := ne_of_isLabelRest ((isLabelRest_of_isLabelName h).2 _ hmem) (by decide) rfl
  no_newline hmem := ne_of_isLabelRest ((isLabelRest_of_isLabelName h).2 _ hmem) (by decide) rfl
  no_mark c hc := isCommentMark_of_isLabelRest ((isLabelRest_of_isLabelName h).2 c hc)

theorem tight_render (m : Reference) : Text.Tight m.render.toList := by
  constructor
  · intro c hc
    rw [toList_render] at hc
    split at hc
    · next w _ =>
      have hne : w.keyword.toList ≠ [] := by cases w <;> decide
      rw [List.append_assoc, List.head?_append_of_ne_nil _ hne] at hc
      exact (forall_mem_keyword w).1.head c hc
    · obtain rfl : c = '[' := by simpa using hc.symm
      decide
  · intro c hc
    rw [toList_render, ← List.cons_append, ← List.append_assoc, List.getLast?_concat] at hc
    obtain rfl : c = ']' := by simpa using hc.symm
    decide

/-! ## Operands -/

end Source

/-- Whether an operand may stand behind a mnemonic: a defined label for a branch, and for all other
instructions a named view, a number or a reference. -/
def Operand.Fits (labels : Labels) (m : Mnemonic) : Operand → Prop
  | .register v => m.takesLabel = false ∧ v.name?.isSome = true
  | .immediate _ => m.takesLabel = false
  | .memory _ => m.takesLabel = false
  | .label name target =>
    m.takesLabel = true ∧ Source.isLabelName name.toList = true ∧
      View.ofName? name.toList = none ∧ labels.get? name = some target

instance (labels : Labels) (m : Mnemonic) (o : Operand) : Decidable (o.Fits labels m) :=
  match o with
  | .register _ => inferInstanceAs (Decidable (_ ∧ _))
  | .immediate _ => inferInstanceAs (Decidable (_ = _))
  | .memory _ => inferInstanceAs (Decidable (_ = _))
  | .label .. => inferInstanceAs (Decidable (_ ∧ _))

theorem View.render_of_name? {v : View} {name : String} (h : v.name? = some name) :
    v.render = name := by
  rw [render, h]

namespace Source

theorem value?_register {v : View} {name : String} (h : v.name? = some name) :
    value? v.render.toList = .ok (.register v) := by
  rw [View.render_of_name? h, value?, View.ofName?_of_name? h]

theorem value?_integer (x : Int64) :
    value? (Text.integer x.toInt).toList = .ok (.immediate x) := by
  obtain ⟨hne, hchars⟩ := forall_mem_integer x.toInt
  have hview : View.ofName? (Text.integer x.toInt).toList = none := by
    rw [toList_integer]
    split
    · exact View.ofName?_eq_none (c := '-') List.mem_cons_self (by decide) (by decide)
    · exact View.ofName?_digits
        (fun c hc => Nat.isDigit_of_mem_toDigits (by decide) (by decide) hc) Nat.toDigits_ne_nil
  have hlower : (Text.integer x.toInt).toList.map Char.toLower = (Text.integer x.toInt).toList :=
    (List.map_congr_left fun c hc => toLower_of_isValueChar (hchars c hc).1).trans
      (List.map_id' _)
  have hbracket : (Text.integer x.toInt).toList.contains '[' = false := by
    rw [Bool.eq_false_iff]
    intro hmem
    exact (hchars '[' (List.contains_iff_mem.1 hmem)).2.2 rfl
  rw [value?, hview]
  simp only [hlower, hbracket, immediate?_integer]
  rfl

theorem value?_render (m : Reference) : value? m.render.toList = .ok (.memory m) := by
  have hbracket : '[' ∈ m.render.toList := by
    rw [toList_render]
    simp
  have hview : View.ofName? m.render.toList = none :=
    View.ofName?_eq_none hbracket (by decide) (by decide)
  have hlower : m.render.toList.map Char.toLower = m.render.toList :=
    (List.map_congr_left fun c hc => toLower_of_isValueChar (forall_mem_render m c hc)).trans
      (List.map_id' _)
  rw [value?, hview]
  simp only [hlower, List.contains_iff_mem.2 hbracket, reference?_render]
  rfl

theorem branchTarget?_of_fits {labels : Labels} {name : String} {target : Nat}
    (hname : isLabelName name.toList = true) (hview : View.ofName? name.toList = none)
    (htarget : labels.get? name = some target) :
    branchTarget? labels name.toList = .ok (.label name target) := by
  simp [branchTarget?, hname, hview, htarget]

/-- An operand is read back from its text behind every mnemonic that takes it. -/
theorem operand?_render {labels : Labels} {m : Mnemonic} {o : Operand} (h : o.Fits labels m) :
    operand? labels m o.render.toList = .ok o := by
  cases o with
  | register v =>
    obtain ⟨hm, hname⟩ := h
    obtain ⟨name, hname⟩ := Option.isSome_iff_exists.1 hname
    rw [operand?, hm, Operand.render, value?_register hname]
    rfl
  | immediate x =>
    have hm : m.takesLabel = false := h
    rw [operand?, hm, Operand.render, value?_integer]
    rfl
  | memory r =>
    have hm : m.takesLabel = false := h
    rw [operand?, hm, Operand.render, value?_render]
    rfl
  | label name target =>
    obtain ⟨hm, hname, hview, htarget⟩ := h
    rw [operand?, hm, Operand.render]
    exact branchTarget?_of_fits hname hview htarget

theorem isItem_render {labels : Labels} {m : Mnemonic} {o : Operand} (h : o.Fits labels m) :
    IsItem o.render.toList := by
  cases o with
  | register v =>
    obtain ⟨name, hname⟩ := Option.isSome_iff_exists.1 h.2
    obtain ⟨hne, hchars⟩ := forall_mem_viewName hname
    rw [Operand.render, View.render_of_name? hname]
    exact .of_isValueChar hne (Text.Tight.of_forall fun c hc => isBlank_of_name (hchars c hc))
      fun c hc => isValueChar_of_name (hchars c hc)
  | immediate x =>
    obtain ⟨hne, hchars⟩ := forall_mem_integer x.toInt
    exact .of_isValueChar hne (Text.Tight.of_forall fun c hc => (hchars c hc).2.1)
      fun c hc => (hchars c hc).1
  | memory r =>
    refine .of_isValueChar ?_ (tight_render r) (forall_mem_render r)
    rw [Operand.render, toList_render]
    simp
  | label name target => exact .of_isLabelName h.2.1

end Source

end X64
