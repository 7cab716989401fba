import X64.Proofs.Source.Assembly
import X64.Proofs.Text.Case

/-!
# Upper and lower case

The names of mnemonics and registers, the size keywords and the digits and prefixes of numbers may
be written in either case, so an operand that is a value can be put into lower case before it is
read (`value?_map_toLower`). Only the names of labels are read as they stand.

Lines are `Alike` if they differ in the case of letters at most, and there only where it does not
matter. `Adds.of_alike` says that such lines add the same to a program.
-/

namespace X64

/-! ## Names -/

/-- A mnemonic is a word of letters. -/
theorem Mnemonic.letters_of_ofName? {name : List Char} {m : Mnemonic} (h : ofName? name = some m) :
    name ≠ [] ∧ ∀ c ∈ name, c.isAlpha = true := by
  have htable : ∀ e ∈ named, e.1 ≠ [] ∧ e.1.all Char.isLower = true := by decide
  obtain ⟨before, after, hnamed, -⟩ := List.lookup_eq_some_iff.1 h
  obtain ⟨hne, hall⟩ := htable (name.map Char.toLower, m) (by rw [hnamed]; simp)
  refine ⟨fun hnil => hne (by rw [hnil]; rfl), fun c hc => ?_⟩
  have hlower := List.all_eq_true.1 hall _ (List.mem_map_of_mem hc)
  rw [Text.isLower_iff_toNat, Text.toNat_toLower] at hlower
  rw [Text.isAlpha_iff, Text.isUpper_iff_toNat, Text.isLower_iff_toNat]
  split at hlower <;> omega

theorem Mnemonic.ofName?_congr {name name' : List Char}
    (h : name.map Char.toLower = name'.map Char.toLower) : ofName? name = ofName? name' := by
  rw [ofName?, ofName?, h]

theorem View.ofName?_map_toLower (cs : List Char) : ofName? (cs.map Char.toLower) = ofName? cs := by
  rw [ofName?, ofName?, Text.map_toLower_map_toLower]

namespace Source

/-! ## Operands -/

/-- A magnitude may be written in either case, its prefix and its digits. -/
theorem magnitude?_map_toLower (cs : List Char) :
    magnitude? (cs.map Char.toLower) = magnitude? cs := by
  by_cases hhex : ∃ d digits, cs = '0' :: d :: digits ∧ d.toLower = 'x'
  · obtain ⟨d, digits, rfl, hd⟩ := hhex
    have hboth : magnitude? ('0' :: d :: digits) = Text.word? 16 digits := by
      have hcode := congrArg Char.toNat hd
      rw [Text.toNat_toLower] at hcode
      have hchar : d = 'x' ∨ d = 'X' := by
        rw [← Char.toNat_inj, ← Char.toNat_inj]
        change _ = 120 at hcode
        change _ = 120 ∨ _ = 88
        split at hcode <;> omega
      rcases hchar with rfl | rfl <;> rfl
    have hlower : ('0' :: d :: digits).map Char.toLower =
        '0' :: 'x' :: digits.map Char.toLower := by
      rw [List.map_cons, List.map_cons, hd]
      rfl
    rw [hboth, hlower]
    exact Text.word?_map_toLower (by decide) digits
  · have hother : magnitude? cs = Text.word? 10 cs :=
      magnitude?.eq_3 cs (fun digits h => hhex ⟨'x', digits, h, rfl⟩)
        fun digits h => hhex ⟨'X', digits, h, rfl⟩
    have hlower (c : Char) (hc : c.toLower = 'x') (digits : List Char) :
        cs.map Char.toLower ≠ '0' :: c :: digits := by
      intro h
      obtain ⟨zero, rest, rfl, hzero, hrest⟩ := List.map_eq_cons_iff.1 h
      obtain ⟨d, digits, rfl, hd, -⟩ := List.map_eq_cons_iff.1 hrest
      rw [Text.toLower_eq_iff (by decide)] at hzero
      refine hhex ⟨d, digits, by rw [hzero], ?_⟩
      rw [← Char.toLower_toLower_eq_toLower, hd, hc]
    rw [hother, magnitude?.eq_3 _ (hlower 'x' rfl) (hlower 'X' rfl)]
    exact Text.word?_map_toLower (by decide) cs

theorem immediate?_map_toLower (cs : List Char) :
    immediate? (cs.map Char.toLower) = immediate? cs := by
  cases cs with
  | nil => rfl
  | cons c cs =>
    by_cases hminus : c = '-'
    · subst hminus
      have hlower : ('-' :: cs).map Char.toLower = '-' :: cs.map Char.toLower := rfl
      rw [hlower, immediate?, immediate?, Text.trimStart_map_toLower, magnitude?_map_toLower]
    · have hminus' : c.toLower ≠ '-' := fun h => hminus ((Text.toLower_eq_iff (by decide)).1 h)
      have hplain {d : Char} (hd : d ≠ '-') (ds : List Char) :
          immediate? (d :: ds) = (magnitude? (d :: ds)).map UInt64.toInt64 :=
        immediate?.eq_2 _ fun rest h => hd (List.cons.inj h).1
      rw [hplain hminus, ← magnitude?_map_toLower, List.map_cons, hplain hminus']

/-- A value may be written in either case. -/
theorem value?_map_toLower (cs : List Char) : value? (cs.map Char.toLower) = value? cs := by
  rw [value?, value?, View.ofName?_map_toLower, Text.map_toLower_map_toLower,
    immediate?_map_toLower]

theorem operand?_map_toLower {m : Mnemonic} (h : m.takesLabel = false) (labels : Labels)
    (cs : List Char) : operand? labels m (cs.map Char.toLower) = operand? labels m cs := by
  rw [operand?, operand?, if_neg (by simp [h]), if_neg (by simp [h]), value?_map_toLower]

/-! ## Lines -/

/-- The case of letters does not matter in a mnemonic, nor in operands that are values. -/
inductive Statement.Alike : Option Statement → Option Statement → Prop
  | refl (s : Option Statement) : Alike s s
  | mnemonic {name name' : List Char} (operands : List (List Char))
      (h : name.map Char.toLower = name'.map Char.toLower) :
      Alike (some (.instruction name operands)) (some (.instruction name' operands))
  | operands {name : List Char} {m : Mnemonic} {operands operands' : List (List Char)}
      (hm : Mnemonic.ofName? name = some m) (hvalue : m.takesLabel = false)
      (h : operands.map (List.map Char.toLower) = operands'.map (List.map Char.toLower)) :
      Alike (some (.instruction name operands)) (some (.instruction name operands'))

/-- Lines that differ in the case of letters at most, and there only where it does not matter. -/
structure Line.Alike (line line' : Line) : Prop where
  number : line.number = line'.number
  labels : line.labels = line'.labels
  statement : Statement.Alike line.statement line'.statement

theorem Line.Alike.refl (line : Line) : line.Alike line := ⟨rfl, rfl, .refl _⟩

theorem Line.Alike.of_eq {line line' : Line} (h : line = line') : line.Alike line' := h ▸ .refl line

section

variable {line line' : Line} {lines lines' : List Line} {labels s t : Labels} {index : Nat}

theorem Line.Alike.isInstruction (h : line.Alike line') :
    line.isInstruction = line'.isInstruction := by
  obtain ⟨_, _, statement⟩ := line
  obtain ⟨_, _, statement'⟩ := line'
  cases h.statement <;> rfl

theorem Line.Alike.directive? (h : line.Alike line') : line.directive? = line'.directive? := by
  obtain ⟨number, names, statement⟩ := line
  obtain ⟨number', names', statement'⟩ := line'
  obtain rfl : number = number' := h.number
  cases h.statement <;> rfl

/-- The instructions on two lines that are alike are the same. -/
theorem instruction?_of_alike {name name' : List Char} {operands operands' : List (List Char)}
    (h : Statement.Alike (some (.instruction name operands)) (some (.instruction name' operands')))
    {number : Nat} {i : Instruction} (hi : instruction? labels number name operands = .ok i) :
    instruction? labels number name' operands' = .ok i := by
  rw [instruction?_eq_ok_iff] at hi ⊢
  obtain ⟨hname, hlength, hoperands, hnumber⟩ := hi
  cases h with
  | refl => exact ⟨hname, hlength, hoperands, hnumber⟩
  | mnemonic _ hcase =>
    rw [Mnemonic.ofName?_congr hcase] at hname
    exact ⟨hname, hlength, hoperands, hnumber⟩
  | operands hm hvalue hcase =>
    obtain rfl := Option.some.inj (hm.symm.trans hname)
    have hlength' := congrArg List.length hcase
    rw [List.length_map, List.length_map] at hlength'
    -- Both lists of operands are read as their common text in lower case.
    have hlower (texts : List (List Char)) :
        List.Forall₂ (fun text o => operand? labels i.mnemonic text = .ok o) texts i.operands ↔
          List.Forall₂ (fun text o => operand? labels i.mnemonic text = .ok o)
            (texts.map (List.map Char.toLower)) i.operands := by
      rw [List.forall₂_map_left_iff]
      simp only [operand?_map_toLower hvalue]
    rw [hlower, hcase, ← hlower] at hoperands
    exact ⟨hname, hlength' ▸ hlength, hoperands, hnumber⟩

theorem collectLabels_of_alike (h : List.Forall₂ Line.Alike lines lines') :
    collectLabels index lines s = collectLabels index lines' s := by
  induction h generalizing index s with
  | nil => rfl
  | cons hline _ ih =>
    rw [collectLabels, collectLabels, defineLabels, defineLabels, hline.labels, hline.number,
      hline.isInstruction]
    simp only [ih]

theorem instructions?_of_alike (h : List.Forall₂ Line.Alike lines lines') {is : List Instruction}
    (his : instructions? labels lines = .ok is) : instructions? labels lines' = .ok is := by
  induction h generalizing is with
  | nil => exact his
  | @cons line line' lines lines' hline _ ih =>
    cases hinstruction : line.isInstruction with
    | false =>
      rw [instructions?_cons_other hinstruction] at his
      rw [instructions?_cons_other (hline.isInstruction ▸ hinstruction)]
      exact ih his
    | true =>
      obtain ⟨name, operands, hstatement⟩ := exists_of_isInstruction hinstruction
      obtain ⟨name', operands', hstatement'⟩ :=
        exists_of_isInstruction (hline.isInstruction ▸ hinstruction)
      obtain ⟨first, others, hfirst, hothers, rfl⟩ :=
        (instructions?_cons_eq_ok_iff hstatement).1 his
      have hstatements := hline.statement
      rw [hstatement, hstatement'] at hstatements
      rw [hline.number] at hfirst
      rw [instructions?_cons_eq_ok_iff hstatement']
      exact ⟨first, others, instruction?_of_alike hstatements hfirst, ih hothers, rfl⟩

theorem filterMap_directive?_of_alike (h : List.Forall₂ Line.Alike lines lines') :
    lines.filterMap Line.directive? = lines'.filterMap Line.directive? := by
  induction h with
  | nil => rfl
  | cons hline _ ih => rw [List.filterMap_cons, List.filterMap_cons, hline.directive?, ih]

/-- Lines that are alike add the same to a program. -/
theorem Adds.of_alike (hlines : List.Forall₂ Line.Alike lines lines') {is : List Instruction}
    {ds : List Directive} (h : Adds labels index s t is ds lines) :
    Adds labels index s t is ds lines' where
  labels_eq := collectLabels_of_alike hlines ▸ h.labels_eq
  instructions_eq := instructions?_of_alike hlines h.instructions_eq
  directives_eq := filterMap_directive?_of_alike hlines ▸ h.directives_eq

end

end Source

end X64
