import X64.Proofs.Text.Character
import X64.Proofs.Text.Numeral
import X64.Text.Split

/-!
# Text in lower case

Putting the letters `A` to `Z` into lower case changes neither the blanks of a text nor its commas,
so it goes together with trimming and with cutting at commas (`trim_map_toLower` and
`items_map_toLower`). A number stays the same number (`word?_map_toLower`).
-/

namespace X64.Text

theorem map_toLower_map_toLower (cs : List Char) :
    (cs.map Char.toLower).map Char.toLower = cs.map Char.toLower := by
  rw [List.map_map]
  exact List.map_congr_left fun c _ => Char.toLower_toLower_eq_toLower c

theorem isBlank_toLower (c : Char) : isBlank c.toLower = isBlank c := by
  rw [Bool.eq_iff_iff]
  simp only [isBlank, toNat_toLower, Bool.or_eq_true, Bool.and_eq_true, decide_eq_true_eq,
    beq_iff_eq]
  split
  · omega
  · rfl

theorem trimStart_map_toLower (cs : List Char) :
    trimStart (cs.map Char.toLower) = (trimStart cs).map Char.toLower := by
  have hblank : isBlank ∘ Char.toLower = isBlank := funext isBlank_toLower
  rw [trimStart, List.dropWhile_map, hblank]
  rfl

theorem trimEnd_map_toLower (cs : List Char) :
    trimEnd (cs.map Char.toLower) = (trimEnd cs).map Char.toLower := by
  induction cs with
  | nil => rfl
  | cons c cs ih =>
    rw [List.map_cons, trimEnd_cons, trimEnd_cons, ih, List.isEmpty_map, isBlank_toLower]
    split <;> rfl

theorem trim_map_toLower (cs : List Char) :
    trim (cs.map Char.toLower) = (trim cs).map Char.toLower := by
  rw [trim, trimStart_map_toLower, trimEnd_map_toLower]
  rfl

theorem splitOn_map_toLower (cs : List Char) :
    (cs.map Char.toLower).splitOn ',' = (cs.splitOn ',').map (List.map Char.toLower) := by
  induction cs with
  | nil => rfl
  | cons c cs ih =>
    have hcomma : (c.toLower == ',') = (c == ',') := by
      rw [Bool.eq_iff_iff, beq_iff_eq, beq_iff_eq, toLower_eq_iff (by decide)]
    rw [List.map_cons, List.splitOn_cons_eq_if_modifyHead, List.splitOn_cons_eq_if_modifyHead, ih,
      hcomma]
    split
    · rfl
    · cases cs.splitOn ',' <;> rfl

theorem items_map_toLower (cs : List Char) :
    items (cs.map Char.toLower) = (items cs).map (List.map Char.toLower) := by
  have htrim : trim ∘ List.map Char.toLower = List.map Char.toLower ∘ trim :=
    funext trim_map_toLower
  have hempty : (fun item : List Char => !item.isEmpty) ∘ List.map Char.toLower =
      fun item => !item.isEmpty :=
    funext fun item => by rw [Function.comp_apply, List.isEmpty_map]
  rw [items, splitOn_map_toLower, List.map_map, htrim, ← List.map_map, List.filter_map, hempty]
  rfl

/-! ## Numbers -/

theorem digitValue?_toLower {base : Nat} (hbase : base ≤ 16) (c : Char) :
    digitValue? base c.toLower = digitValue? base c := by
  ext d
  simp only [digitValue?_eq_some_iff hbase, IsDigit,
    Char.toLower_toLower_eq_toLower]

theorem digits?_map_toLower {base : Nat} (hbase : base ≤ 16) (cs : List Char) :
    digits? base (cs.map Char.toLower) = digits? base cs := by
  simp only [digits?, List.isEmpty_map, List.foldlM_map, digitValue?_toLower hbase]

/-- A number may be written in either case. -/
theorem word?_map_toLower {base : Nat} (hbase : base ≤ 16) (cs : List Char) :
    word? base (cs.map Char.toLower) = word? base cs := by
  have hplus : (cs.map Char.toLower).head? = some '+' ↔ cs.head? = some '+' := by
    cases cs with
    | nil => simp
    | cons c cs => simp [toLower_eq_iff (c := c) (d := '+') (by decide)]
  simp only [word?, hplus, ← List.map_tail]
  rw [← apply_ite (List.map Char.toLower), digits?_map_toLower hbase]

end X64.Text
