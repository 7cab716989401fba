import X64.Proofs.Text.Character
import X64.Text.Numeral
import Mathlib.Data.List.Forall2
import Mathlib.Data.Nat.Digits.Defs

/-!
# Reading numerals

A number is read back from its decimal digits: `digits?_toDigits`, and `word?_toDigits` for a number
that fits into a machine word.

`IsNumeral` says which texts are numbers, and of what value, and `digits?_eq_some_iff` that just
these are read. With a plus sign, which may stand in front, a number that fits into a machine word
is an `IsWord` (`word?_eq_some_iff_isWord`).
-/

namespace X64.Text

/-- A character that is no digit is none of the digits of a number. -/
theorem not_mem_toDigits {c : Char} (hc : c.isDigit = false) (n : Nat) : c ∉ Nat.toDigits 10 n := by
  intro hmem
  rw [Nat.isDigit_of_mem_toDigits (by decide) (by decide) hmem] at hc
  exact absurd hc (by decide)

theorem digitValue?_of_isDigit {c : Char} (hc : c.isDigit = true) :
    digitValue? 10 c = some (c.toNat - '0'.toNat) := by
  have hrange := toNat_of_isDigit hc
  have hchar : '0' ≤ c ∧ c ≤ '9' := by
    simpa [Char.isDigit, Char.le_def] using hc
  have hlt : c.toNat - '0'.toNat < 10 := by
    have hzero : '0'.toNat = 48 := rfl
    omega
  simp only [digitValue?, if_pos hchar, if_pos hlt]

/-- Reading digits from left to right computes the number that they stand for. -/
theorem foldlM_digitValue? {cs : List Char} (h : ∀ c ∈ cs, c.isDigit = true) (init : Nat) :
    cs.foldlM (fun n c => (digitValue? 10 c).map fun d => 10 * n + d) init =
      some (Nat.ofDigitChars 10 cs init) := by
  induction cs generalizing init with
  | nil => rfl
  | cons c cs ih =>
    rw [List.foldlM_cons, digitValue?_of_isDigit (h c List.mem_cons_self), Nat.ofDigitChars_cons]
    exact ih (fun d hd => h d (List.mem_cons_of_mem _ hd)) _

theorem digits?_toDigits (n : Nat) : digits? 10 (Nat.toDigits 10 n) = some n := by
  rw [digits?, if_neg (by simp [Nat.toDigits_ne_nil]),
    foldlM_digitValue? fun c hc => Nat.isDigit_of_mem_toDigits (by decide) (by decide) hc,
    Nat.ofDigitChars_ten_toDigits]

/-- A machine word is read back from its decimal digits. -/
theorem word?_toDigits {n : Nat} (h : n < UInt64.size) :
    word? 10 (Nat.toDigits 10 n) = some (UInt64.ofNat n) := by
  have hplus : (Nat.toDigits 10 n).head? ≠ some '+' := by
    intro hhead
    exact not_mem_toDigits (by decide) n (List.mem_of_mem_head? hhead)
  rw [word?, if_neg hplus, digits?_toDigits]
  exact if_pos h

/-! ## Numerals -/

theorem toNat_digitChar {d : Nat} (h : d < 16) :
    (Nat.digitChar d).toNat = if d < 10 then 48 + d else 87 + d := by
  have hall : ∀ d < 16, (Nat.digitChar d).toNat = if d < 10 then 48 + d else 87 + d := by decide
  exact hall d h

/-- The character is the digit `d` in a base, where the case of the letters does not matter. -/
def IsDigit (base : Nat) (c : Char) (d : Nat) : Prop := d < base ∧ c.toLower = Nat.digitChar d

theorem digitValue?_eq_some_iff {base : Nat} (hbase : base ≤ 16) {c : Char} {d : Nat} :
    digitValue? base c = some d ↔ IsDigit base c d := by
  have hchar (lo hi : Char) : lo ≤ c ∧ c ≤ hi ↔ lo.toNat ≤ c.toNat ∧ c.toNat ≤ hi.toNat := by
    rw [Char.le_def, Char.le_def, UInt32.le_iff_toNat_le, UInt32.le_iff_toNat_le]
    rfl
  have hlower := toNat_toLower c
  have hcodes : '0'.toNat = 48 ∧ '9'.toNat = 57 ∧ 'a'.toNat = 97 ∧ 'f'.toNat = 102 ∧
      'A'.toNat = 65 ∧ 'F'.toNat = 70 := by decide
  unfold digitValue? IsDigit
  simp only [hchar, hcodes, Option.ite_none_right_eq_some, Option.some.injEq]
  rw [← Char.toNat_inj]
  constructor
  · rintro ⟨hlt, rfl⟩
    refine ⟨hlt, ?_⟩
    rw [toNat_digitChar (by omega)]
    split_ifs at * <;> omega
  · intro ⟨hlt, hd⟩
    rw [toNat_digitChar (by omega)] at hd
    split_ifs at * <;> omega

/-- The text is a number in a base, written with at least one digit. -/
def IsNumeral (base : Nat) (cs : List Char) (n : Nat) : Prop :=
  cs ≠ [] ∧ ∃ ds, List.Forall₂ (IsDigit base) cs ds ∧ n = Nat.ofDigits base ds.reverse

/-- A digit is in the range of the decimal digits, or it is a letter up to `f`. -/
theorem IsDigit.toNat {base d : Nat} (hbase : base ≤ 16) {c : Char} (h : IsDigit base c d) :
    48 ≤ c.toNat ∧ c.toNat ≤ 57 ∨
      10 < base ∧ (65 ≤ c.toNat ∧ c.toNat ≤ 70 ∨ 97 ≤ c.toNat ∧ c.toNat ≤ 102) := by
  obtain ⟨hd, hc⟩ := h
  have hlower := toNat_toLower c
  rw [hc, toNat_digitChar (by omega)] at hlower
  split_ifs at hlower <;> omega

theorem IsNumeral.forall_mem {base n : Nat} (hbase : base ≤ 16) {cs : List Char}
    (h : IsNumeral base cs n) :
    ∀ c ∈ cs, 48 ≤ c.toNat ∧ c.toNat ≤ 57 ∨
      10 < base ∧ (65 ≤ c.toNat ∧ c.toNat ≤ 70 ∨ 97 ≤ c.toNat ∧ c.toNat ≤ 102) := by
  obtain ⟨-, ds, hds, -⟩ := h
  intro c hc
  obtain ⟨i, hi, rfl⟩ := List.mem_iff_getElem.1 hc
  have hi' : i < ds.length := hds.length_eq ▸ hi
  exact (List.Forall₂.get hds hi hi').toNat hbase

/-- Digits are read one by one. -/
theorem foldlM_digitValue?_eq_some_iff {base : Nat} (hbase : base ≤ 16) {cs : List Char}
    {init n : Nat} :
    cs.foldlM (fun n c => (digitValue? base c).map fun d => base * n + d) init = some n ↔
      ∃ ds, List.Forall₂ (IsDigit base) cs ds ∧ n = ds.foldl (fun n d => base * n + d) init := by
  induction cs generalizing init with
  | nil => simp [eq_comm]
  | cons c cs ih =>
    rw [List.foldlM_cons, Option.bind_eq_bind, Option.bind_eq_some_iff]
    simp only [Option.map_eq_some_iff, digitValue?_eq_some_iff hbase, ih,
      List.forall₂_cons_left_iff]
    constructor
    · rintro ⟨_, ⟨d, hd, rfl⟩, ds, hds, rfl⟩
      exact ⟨d :: ds, ⟨d, ds, hd, hds, rfl⟩, rfl⟩
    · rintro ⟨_, ⟨d, ds, hd, hds, rfl⟩, rfl⟩
      exact ⟨_, ⟨d, hd, rfl⟩, ds, hds, rfl⟩

theorem ofDigits_reverse (base : Nat) (ds : List Nat) :
    Nat.ofDigits base ds.reverse = ds.foldl (fun n d => base * n + d) 0 := by
  simp only [Nat.ofDigits_eq_foldr, List.foldr_reverse, Nat.cast_id, Nat.add_comm]

theorem digits?_eq_some_iff {base : Nat} (hbase : base ≤ 16) {cs : List Char} {n : Nat} :
    digits? base cs = some n ↔ IsNumeral base cs n := by
  unfold digits? IsNumeral
  simp only [List.isEmpty_iff, Option.ite_none_left_eq_some, foldlM_digitValue?_eq_some_iff hbase,
    ofDigits_reverse, ne_eq]

/-- The text is a number below `2 ^ 64` in a base, perhaps behind a plus sign. -/
def IsWord (base : Nat) (cs : List Char) (v : UInt64) : Prop :=
  ∃ digits n, (cs = digits ∨ cs = '+' :: digits) ∧ IsNumeral base digits n ∧ n < UInt64.size ∧
    v = UInt64.ofNat n

theorem IsNumeral.head?_ne_plus {base : Nat} (hbase : base ≤ 16) {cs : List Char} {n : Nat}
    (h : IsNumeral base cs n) : cs.head? ≠ some '+' := by
  intro hhead
  have hplus := h.forall_mem hbase '+' (List.mem_of_mem_head? hhead)
  have hcode : '+'.toNat = 43 := rfl
  omega

/-- A machine word is read from any text that is one, with or without the sign. -/
theorem word?_eq_some_iff_isWord {base : Nat} (hbase : base ≤ 16) {cs : List Char} {v : UInt64} :
    word? base cs = some v ↔ IsWord base cs v := by
  unfold word? IsWord
  simp only [Option.bind_eq_bind, Option.bind_eq_some_iff, digits?_eq_some_iff hbase,
    Option.ite_none_right_eq_some, Option.some.injEq, @eq_comm UInt64 v]
  constructor
  · rintro ⟨n, hn, hlt, rfl⟩
    refine ⟨_, n, ?_, hn, hlt, rfl⟩
    split
    · next hhead =>
      obtain ⟨rest, rfl⟩ := List.head?_eq_some_iff.1 hhead
      exact Or.inr rfl
    · exact Or.inl rfl
  · rintro ⟨digits, n, hcs, hn, hlt, rfl⟩
    refine ⟨n, ?_, hlt, rfl⟩
    rcases hcs with rfl | rfl
    · rwa [if_neg (hn.head?_ne_plus hbase)]
    · exact hn

/-- The characters of a decimal machine word. -/
theorem IsWord.forall_mem {cs : List Char} {v : UInt64} (h : IsWord 10 cs v) :
    cs ≠ [] ∧ ∀ c ∈ cs, c = '+' ∨ c.isDigit = true := by
  obtain ⟨digits, n, hcs, hn, -⟩ := h
  have hdigits : ∀ c ∈ digits, c.isDigit = true := by
    intro c hc
    have hcode := hn.forall_mem (by decide) c hc
    apply Char.isDigit_iff_toNat.2
    show 48 ≤ c.toNat ∧ c.toNat ≤ 57
    omega
  obtain rfl | rfl := hcs
  · exact ⟨hn.1, fun c hc => Or.inr (hdigits c hc)⟩
  · refine ⟨by simp, fun c hc => ?_⟩
    obtain hplus | hc := List.mem_cons.1 hc
    · exact Or.inl hplus
    · exact Or.inr (hdigits c hc)

theorem IsWord.isBlank_of_mem {cs : List Char} {v : UInt64} (h : IsWord 10 cs v) :
    ∀ c ∈ cs, isBlank c = false := by
  intro c hc
  obtain rfl | hdigit := h.forall_mem.2 c hc
  · decide
  · exact isBlank_of_isDigit hdigit

/-- A text is one machine word at most. -/
theorem IsWord.unique {base : Nat} (hbase : base ≤ 16) {cs : List Char} {v v' : UInt64}
    (h : IsWord base cs v) (h' : IsWord base cs v') : v = v' := by
  rw [← word?_eq_some_iff_isWord hbase] at h h'
  exact Option.some.inj (h.symm.trans h')

/-- Without the sign, a machine word is a numeral below `2 ^ 64`. -/
theorem isWord_iff_of_head {base : Nat} {cs : List Char} (hplus : cs.head? ≠ some '+')
    {v : UInt64} :
    IsWord base cs v ↔ ∃ n, IsNumeral base cs n ∧ n < UInt64.size ∧ v = UInt64.ofNat n := by
  constructor
  · intro ⟨digits, n, hcs, hn⟩
    obtain rfl | rfl := hcs
    · exact ⟨n, hn⟩
    · exact absurd rfl hplus
  · intro ⟨n, hn⟩
    exact ⟨cs, n, Or.inl rfl, hn⟩

end X64.Text
