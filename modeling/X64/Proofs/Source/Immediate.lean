import X64.Proofs.Operand
import X64.Proofs.Source.Operand

/-!
# Which immediates are read

An immediate is a magnitude, in decimal or in hexadecimal, that may have a minus sign and blanks in
front of it. `IsMagnitude` and `IsInteger` say this without the reader, and `magnitude?_eq_some_iff`
and `immediate?_eq_some_iff` that just these texts are read.

The integer that a text stands for need not be that of a word. The value is the word that is
congruent to it modulo `2 ^ 64`.
-/

namespace X64.Source

/-! ## Magnitudes -/

/-- The text is a number below `2 ^ 64`: a decimal one, or a hexadecimal one behind `0x` or `0X`.
The digits of either may have a plus sign in front of them. -/
def IsMagnitude (cs : List Char) (m : UInt64) : Prop :=
  Text.IsWord 10 cs m ∨
    ∃ digits, (cs = '0' :: 'x' :: digits ∨ cs = '0' :: 'X' :: digits) ∧ Text.IsWord 16 digits m

/-- The text stands for the integer. Only a minus sign may have blanks behind it. -/
inductive IsInteger : List Char → Int → Prop
  | unsigned {cs : List Char} {m : UInt64} (hm : IsMagnitude cs m) : IsInteger cs m.toNat
  | negated {gap cs : List Char} {m : UInt64} (hgap : Text.Blanks gap) (hm : IsMagnitude cs m) :
      IsInteger ('-' :: (gap ++ cs)) (-m.toNat)

section

variable {cs : List Char} {m : UInt64} {x : Int64}

/-- A text with another character is no decimal number. -/
theorem not_isWord_of_mem {c : Char} (hc : c ∈ cs) (hplus : c ≠ '+')
    (hdigit : c.isDigit = false) : ¬Text.IsWord 10 cs m := by
  intro h
  obtain heq | hchar := h.forall_mem.2 c hc
  · exact hplus heq
  · rw [hdigit] at hchar
    cases hchar

/-- Behind the prefix of a hexadecimal number, no other number is read. -/
theorem isMagnitude_prefixed {letter : Char} (hletter : letter = 'x' ∨ letter = 'X') :
    IsMagnitude ('0' :: letter :: cs) m ↔ Text.IsWord 16 cs m := by
  have hdecimal : ¬Text.IsWord 10 ('0' :: letter :: cs) m := by
    have hcode : letter ≠ '+' ∧ letter.isDigit = false := by
      obtain rfl | rfl := hletter <;> decide
    exact not_isWord_of_mem (List.mem_cons_of_mem _ List.mem_cons_self) hcode.1 hcode.2
  unfold IsMagnitude
  rw [or_iff_right hdecimal]
  constructor
  · intro ⟨digits, hcs, hdigits⟩
    obtain hcs | hcs := hcs
    · exact (List.cons.inj (List.cons.inj hcs).2).2 ▸ hdigits
    · exact (List.cons.inj (List.cons.inj hcs).2).2 ▸ hdigits
  · intro h
    obtain rfl | rfl := hletter
    · exact ⟨cs, Or.inl rfl, h⟩
    · exact ⟨cs, Or.inr rfl, h⟩

/-- Just the magnitudes are read. -/
theorem magnitude?_eq_some_iff : magnitude? cs = some m ↔ IsMagnitude cs m := by
  unfold magnitude?
  split
  · next digits =>
    rw [isMagnitude_prefixed (Or.inl rfl), Text.word?_eq_some_iff_isWord (by decide)]
  · next digits =>
    rw [isMagnitude_prefixed (Or.inr rfl), Text.word?_eq_some_iff_isWord (by decide)]
  · next hx hX =>
    have hhex : ¬∃ digits, (cs = '0' :: 'x' :: digits ∨ cs = '0' :: 'X' :: digits) ∧
        Text.IsWord 16 digits m := by
      intro ⟨digits, hcs, _⟩
      obtain hcs | hcs := hcs
      · exact hx digits hcs
      · exact hX digits hcs
    rw [IsMagnitude, or_iff_left hhex, Text.word?_eq_some_iff_isWord (by decide)]

/-- A magnitude begins neither with a blank nor with a minus sign. -/
theorem IsMagnitude.exists_head (h : IsMagnitude cs m) :
    ∃ c rest, cs = c :: rest ∧ Text.isBlank c = false ∧ c ≠ '-' := by
  obtain h | ⟨digits, hcs, -⟩ := h
  · obtain ⟨hne, hchars⟩ := h.forall_mem
    obtain ⟨c, rest, rfl⟩ := List.exists_cons_of_ne_nil hne
    refine ⟨c, rest, rfl, h.isBlank_of_mem c List.mem_cons_self, ?_⟩
    intro heq
    subst heq
    exact absurd (hchars '-' List.mem_cons_self) (by decide)
  · obtain rfl | rfl := hcs
    · exact ⟨'0', _, rfl, by decide, by decide⟩
    · exact ⟨'0', _, rfl, by decide, by decide⟩

/-! ## Integers -/

theorem immediate?_of_head (h : cs.head? ≠ some '-') :
    immediate? cs = (magnitude? cs).map UInt64.toInt64 := by
  unfold immediate?
  split
  · exact absurd rfl h
  · rfl

/-- The word of an integer is read from every text that stands for it. -/
theorem immediate?_of_isInteger {z : Int} (h : IsInteger cs z) :
    immediate? cs = some (UInt64.ofInt z).toInt64 := by
  cases h with
  | @unsigned _ m hm =>
    obtain ⟨c, rest, rfl, -, hminus⟩ := hm.exists_head
    rw [immediate?_of_head (by simpa using hminus), magnitude?_eq_some_iff.2 hm, ofInt_toNat]
    rfl
  | @negated gap cs m hgap hm =>
    have htrim : Text.trimStart (gap ++ cs) = cs := by
      obtain ⟨c, rest, rfl, hblank, -⟩ := hm.exists_head
      rw [Text.trimStart_append hgap]
      exact Text.trimStart_of_head fun d hd => Option.some.inj hd ▸ hblank
    rw [immediate?, htrim, magnitude?_eq_some_iff.2 hm, UInt64.ofInt_neg, ofInt_toNat]
    rfl

/-- Every text that is read stands for an integer. -/
theorem exists_isInteger (h : immediate? cs = some x) : ∃ z, IsInteger cs z := by
  unfold immediate? at h
  split at h
  · next rest =>
    obtain ⟨m, hm, -⟩ := Option.map_eq_some_iff.1 h
    have hrest : rest.takeWhile Text.isBlank ++ Text.trimStart rest = rest :=
      List.takeWhile_append_dropWhile
    have hgap : Text.Blanks (rest.takeWhile Text.isBlank) := fun c hc =>
      List.all_eq_true.1 List.all_takeWhile c hc
    have hinteger := IsInteger.negated hgap (magnitude?_eq_some_iff.1 hm)
    rw [hrest] at hinteger
    exact ⟨_, hinteger⟩
  · obtain ⟨m, hm, -⟩ := Option.map_eq_some_iff.1 h
    exact ⟨_, .unsigned (magnitude?_eq_some_iff.1 hm)⟩

theorem exists_immediate?_iff : (∃ x, immediate? cs = some x) ↔ ∃ z, IsInteger cs z :=
  ⟨fun ⟨_, h⟩ => exists_isInteger h, fun ⟨_, h⟩ => ⟨_, immediate?_of_isInteger h⟩⟩

/-- The value of an immediate is congruent to the integer that its text stands for. -/
theorem immediate?_eq_some_iff :
    immediate? cs = some x ↔
      ∃ z, IsInteger cs z ∧ x.toInt % UInt64.size = z % UInt64.size := by
  simp only [← toUInt64_eq_ofInt_iff]
  constructor
  · intro h
    obtain ⟨z, hz⟩ := exists_isInteger h
    obtain rfl : (UInt64.ofInt z).toInt64 = x :=
      Option.some.inj ((immediate?_of_isInteger hz).symm.trans h)
    exact ⟨z, hz, UInt64.toUInt64_toInt64 _⟩
  · intro ⟨z, hz, hx⟩
    rw [immediate?_of_isInteger hz, ← hx, Int64.toInt64_toUInt64]

end

/-- A text is read as an immediate exactly if it stands for an integer, whose magnitude is below
`2 ^ 64`. The value is the word congruent to that integer, so every word is read back from its
decimal digits. -/
theorem immediates_are_integers :
    (∀ cs, (∃ x, immediate? cs = some x) ↔ ∃ z, IsInteger cs z) ∧
      (∀ cs x, immediate? cs = some x ↔
        ∃ z, IsInteger cs z ∧ x.toInt % UInt64.size = z % UInt64.size) ∧
      ∀ x : Int64, immediate? (Text.integer x.toInt).toList = some x :=
  ⟨fun _ => exists_immediate?_iff, fun _ _ => immediate?_eq_some_iff, immediate?_integer⟩

/-- The largest magnitude is the word of minus one. It may have a minus sign as well, and then it
stands for one. -/
example : immediate? "0XFFFFffffFFFFffff".toList = some (-1) ∧
    immediate? "-\t +18446744073709551615".toList = some 1 ∧
    immediate? "18446744073709551616".toList = none := by
  decide +kernel

end X64.Source
