import X64.Proofs.Source.Assembly

/-!
# Sources one after the other

A source with a newline and a second source behind it. The lines of both are the lines of the
concatenation, so what is left to say concerns the two passes over them.

* `collectLabels_relocate` follows the first pass over the second source. It starts from the table
  of the first one, and `Labels.Joins` is the invariant. Either the pass ends with the joined table,
  and then the two have no name in common, or it stops at a name that both of them define.
* `Adds.relocate` is what the second source adds behind the first one: the same instructions and
  directives, on later lines and with later targets.
* `Program.ofSource_append` is about two sources that are programs of their own, and
  `Program.prefix_of_ofSource_append` about a second source that may branch into the first one.
-/

namespace X64

/-- The directive behind more lines. -/
def Directive.relocate (lines : Nat) (d : Directive) : Directive where
  name := d.name
  args := d.args
  line := d.line + lines

namespace Source

/-! ## The first pass -/

theorem Line.names_relocate (k : Nat) (line : Line) : (line.relocate k).names = line.names := rfl

/-- A line whose labels differ from one another can be added to every table that has none of
them. -/
theorem defineLabels_of_nodup {line : Line} (hnodup : line.names.Nodup) (index : Nat)
    (s : Labels) :
    (∃ t, defineLabels index line s = .ok t) ∨
      ∃ name ∈ line.names, (s.get? name).isSome = true ∧
        defineLabels index line s = .error (.duplicateLabel line.number name) := by
  unfold defineLabels
  unfold Line.names at hnodup ⊢
  generalize line.labels = labels at hnodup ⊢
  induction labels generalizing s with
  | nil => exact Or.inl ⟨s, rfl⟩
  | cons name labels ih =>
    obtain ⟨hnot, hnodup⟩ := List.nodup_cons.1 hnodup
    rw [List.foldlM_cons, List.map_cons]
    cases hname : s.get? (String.ofList name) with
    | some i => exact Or.inr ⟨_, List.mem_cons_self, by rw [hname]; rfl, by simp [hname]; rfl⟩
    | none =>
      simp only [hname, Option.isSome_none, Bool.false_eq_true, if_false, ok_bind]
      rcases ih (s.insert (String.ofList name) index) hnodup with hok | ⟨key, hkey, hsome, herror⟩
      · exact Or.inl hok
      · rw [Labels.get?_insert, if_neg (ne_of_mem_of_not_mem hkey hnot)] at hsome
        exact Or.inr ⟨key, List.mem_cons_of_mem _ hkey, hsome, herror⟩

/-- A pass over lines keeps the labels that are there. -/
theorem le_of_collectLabels {index : Nat} {lines : List Line} {s t : Labels}
    (h : collectLabels index lines s = .ok t) : s.Le t :=
  fun _ _ hname => (collectLabels_spec h).2 (Or.inl hname)

theorem countInstructions_map_relocate (k : Nat) (lines : List Line) :
    countInstructions (lines.map (Line.relocate k)) = countInstructions lines := by
  rw [countInstructions, List.countP_map]
  rfl

/-- The first pass over lines that stand behind another program. On their own they extend `s` to
`t`; here they start from the table of that program joined with `s`. -/
theorem collectLabels_relocate (k : Nat) {offset index : Nat} {lines : List Line}
    {base s t u : Labels} (h : collectLabels index lines s = .ok t) (hu : u.Joins base s offset) :
    (∃ v, collectLabels (index + offset) (lines.map (Line.relocate k)) u = .ok v ∧
        v.Joins base t offset ∧
        ∀ name, s.get? name = none → base.get? name = none ∨ t.get? name = none) ∨
      ∃ line name, (base.get? name).isSome = true ∧ (t.get? name).isSome = true ∧
        collectLabels (index + offset) (lines.map (Line.relocate k)) u =
          .error (.duplicateLabel line name) := by
  induction lines generalizing index s u with
  | nil =>
    cases h
    exact Or.inl ⟨u, rfl, hu, fun name hname => Or.inr hname⟩
  | cons first rest ih =>
    rw [collectLabels_cons, bind_eq_ok_iff] at h
    obtain ⟨s', hs', hrest⟩ := h
    have hextends : s.Extends first.names index s' := defineLabels_eq_ok_iff.1 hs'
    have hadded : ∀ name ∈ first.names, t.get? name = some index := by
      intro name hname
      refine le_of_collectLabels hrest name index ?_
      rw [hextends.get?_eq name, if_pos hname]
    have hnodup : (first.relocate k).names.Nodup := hextends.nodup
    rw [List.map_cons, collectLabels_cons]
    rcases defineLabels_of_nodup hnodup (index + offset) u with
      ⟨u', hu'⟩ | ⟨name, hname, htaken, herror⟩
    · have hextends' := defineLabels_eq_ok_iff.1 hu'
      rw [Line.names_relocate] at hextends'
      have hindex : index + offset + countInstructions [first.relocate k] =
          index + countInstructions [first] + offset := by
        have hcount := countInstructions_map_relocate k [first]
        rw [List.map_cons, List.map_nil] at hcount
        omega
      rw [hu', ok_bind, hindex]
      rcases ih hrest (hu.extend hextends hextends') with ⟨v, hv, hjoins, hdisjoint⟩ | hcommon
      · refine Or.inl ⟨v, hv, hjoins, fun name hfree => ?_⟩
        by_cases hname : name ∈ first.names
        · exact Or.inl (hu.get?_base_eq_none (hextends'.fresh name hname))
        · refine hdisjoint name ?_
          rw [hextends.get?_eq name, if_neg hname]
          exact hfree
      · exact Or.inr hcommon
    · rw [Line.names_relocate] at hname
      have hbase : (base.get? name).isSome = true := by
        rw [hu name, hextends.fresh name hname, Option.map_none, Option.or_none] at htaken
        exact htaken
      refine Or.inr ⟨first.number + k, name, hbase, by rw [hadded name hname]; rfl, ?_⟩
      rw [herror]
      rfl

/-! ## The second pass -/

theorem filterMap_directive?_relocate (k : Nat) (lines : List Line) :
    (lines.map (Line.relocate k)).filterMap Line.directive? =
      (lines.filterMap Line.directive?).map (Directive.relocate k) :=
  filterMap_directive?_renumber (· + k) lines

/-- What a stretch of lines adds behind another program. -/
theorem Adds.relocate {labels larger s t u v : Labels} {is : List Instruction}
    {ds : List Directive} {lines : List Line} (h : Adds labels 0 s t is ds lines) (k : Nat)
    {offset : Nat} (hlabels : labels.ShiftsTo larger offset)
    (hv : collectLabels (0 + offset) (lines.map (Line.relocate k)) u = .ok v) :
    Adds larger (0 + offset) u v (is.map (Instruction.relocate k offset))
      (ds.map (Directive.relocate k)) (lines.map (Line.relocate k)) where
  labels_eq := hv
  instructions_eq := instructions?_relocate hlabels k h.instructions_eq
  directives_eq := by rw [filterMap_directive?_relocate, h.directives_eq]

end Source

/-! ## Programs -/

namespace Program

variable {a b : String} {pa pb p : Program}

/-- The lines of two sources with a newline in between. -/
theorem ofSource_append_lines (a b : String) :
    ∃ blank, (blank = [] ∨ ∃ number, blank = [⟨number, [], none⟩]) ∧
      Source.Line.ofSource (a ++ "\n" ++ b).toList =
        Source.Line.ofSource a.toList ++
          (blank ++ (Source.Line.ofSource b.toList).map
            (Source.Line.relocate (a.toList.count '\n' + 1))) := by
  have htext : (a ++ "\n" ++ b).toList = a.toList ++ '\n' :: b.toList := by
    simp
  rw [htext, Source.Line.map_relocate_ofSource]
  exact Source.Line.ofSource_append a.toList b.toList

/-- Two sources that are programs of their own. Behind each other they are a program if they have no
label in common; otherwise a common label is defined twice. -/
theorem ofSource_append (ha : ofSource a = .ok pa) (hb : ofSource b = .ok pb) :
    (∃ p, ofSource (a ++ "\n" ++ b) = .ok p ∧
        p.instructions = pa.instructions ++
          pb.instructions.map (Instruction.relocate (a.toList.count '\n' + 1) pa.size) ∧
        p.labels.Joins pa.labels pb.labels pa.size ∧
        p.directives =
          pa.directives ++ pb.directives.map (Directive.relocate (a.toList.count '\n' + 1)) ∧
        ∀ name, pa.label? name = none ∨ pb.label? name = none) ∨
      ∃ line name, (pa.label? name).isSome = true ∧ (pb.label? name).isSome = true ∧
        ofSource (a ++ "\n" ++ b) = .error (.duplicateLabel line name) := by
  obtain ⟨hadds, -⟩ := Source.assemble_iff_adds.1 ha
  obtain ⟨hadds', -⟩ := Source.assemble_iff_adds.1 hb
  obtain ⟨blank, hblank, hlines⟩ := ofSource_append_lines a b
  have hjoins := Labels.Joins.refl pa.labels pa.size
  have hsize : pa.instructions.toList.length = pa.size := rfl
  have hgap := fun labels => Source.Adds.blank labels pa.size pa.labels hblank
  rcases Source.collectLabels_relocate (a.toList.count '\n' + 1) hadds'.labels_eq hjoins with
    ⟨v, hv, hv', hdisjoint⟩ | ⟨line, name, hname, hname', herror⟩
  · left
    have hdisjoint' : ∀ name, pa.label? name = none ∨ pb.label? name = none :=
      fun name => hdisjoint name rfl
    have hsecond := hadds'.relocate (a.toList.count '\n' + 1) (hv'.shiftsTo hdisjoint') hv
    rw [Nat.zero_add] at hsecond
    refine ⟨{ instructions := pa.instructions ++ pb.instructions.map (Instruction.relocate _ _)
              labels := v
              directives := pa.directives ++ pb.directives.map (Directive.relocate _) },
      ?_, rfl, hv', rfl, hdisjoint'⟩
    rw [ofSource, hlines, Source.assemble_iff_adds, Array.toList_append, Array.toList_map]
    refine ⟨(hadds.mono hv'.le).append ?_, rfl⟩
    rw [hsize, Nat.zero_add]
    exact (hgap v).append hsecond
  · right
    refine ⟨line, name, hname, hname', ?_⟩
    rw [ofSource, hlines, Source.assemble, Source.collectLabels_append, hadds.labels_eq, ok_bind,
      Source.collectLabels_append, hadds.countInstructions_eq, hsize, Nat.zero_add,
      (hgap .empty).labels_eq, ok_bind, (hgap .empty).countInstructions_eq]
    rw [Nat.zero_add] at herror
    rw [List.length_nil, Nat.add_zero, herror]
    rfl

/-- Whatever stands behind a source, the program of the source stays as it is at the front. -/
theorem prefix_of_ofSource_append (ha : ofSource a = .ok pa)
    (h : ofSource (a ++ "\n" ++ b) = .ok p) :
    pa.instructions.toList <+: p.instructions.toList ∧ pa.directives <+: p.directives ∧
      pa.labels.Le p.labels := by
  obtain ⟨hadds, -⟩ := Source.assemble_iff_adds.1 ha
  obtain ⟨hall, -⟩ := Source.assemble_iff_adds.1 h
  obtain ⟨blank, -, hlines⟩ := ofSource_append_lines a b
  rw [hlines] at hall
  -- The labels of the first source are collected first, and they stay.
  have hlabels := hall.labels_eq
  rw [Source.collectLabels_append, hadds.labels_eq, ok_bind] at hlabels
  have hle : pa.labels.Le p.labels := Source.le_of_collectLabels hlabels
  -- So its instructions are read as before.
  have hinstructions := hall.instructions_eq
  rw [Source.instructions?_append, (hadds.mono hle).instructions_eq, ok_bind, bind_eq_ok_iff]
    at hinstructions
  obtain ⟨others, -, heq⟩ := hinstructions
  have hdirectives := hall.directives_eq
  rw [List.filterMap_append, hadds.directives_eq] at hdirectives
  exact ⟨⟨others, Except.ok.inj heq⟩, ⟨_, hdirectives⟩, hle⟩

end Program

/-- Reading a source is compositional. Two sources with a newline in between are read as the program
of the first one, followed by that of the second one with later lines and later targets, if the two
have no label in common. If they have one, a common label is reported as defined twice. And whatever
stands behind a source, the instructions, directives and labels of the source stay as they are. -/
theorem concatenation_is_read_in_parts (a b : String) :
    (∀ pa pb, Program.ofSource a = .ok pa → Program.ofSource b = .ok pb →
      ((∃ name, (pa.label? name).isSome = true ∧ (pb.label? name).isSome = true) →
        ∃ line name, (pa.label? name).isSome = true ∧ (pb.label? name).isSome = true ∧
          Program.ofSource (a ++ "\n" ++ b) = .error (.duplicateLabel line name)) ∧
      ((∀ name, pa.label? name = none ∨ pb.label? name = none) →
        ∃ p, Program.ofSource (a ++ "\n" ++ b) = .ok p ∧
          p.instructions = pa.instructions ++
            pb.instructions.map (Instruction.relocate (a.toList.count '\n' + 1) pa.size) ∧
          (∀ name, p.label? name =
            (pa.label? name).or ((pb.label? name).map (· + pa.size))) ∧
          p.directives =
            pa.directives ++ pb.directives.map (Directive.relocate (a.toList.count '\n' + 1)))) ∧
      ∀ pa p, Program.ofSource a = .ok pa → Program.ofSource (a ++ "\n" ++ b) = .ok p →
        pa.instructions.toList <+: p.instructions.toList ∧ pa.directives <+: p.directives ∧
          ∀ name index, pa.label? name = some index → p.label? name = some index := by
  refine ⟨fun pa pb ha hb => ?_, fun pa p ha h => Program.prefix_of_ofSource_append ha h⟩
  have hcommon : ∀ name, (pa.label? name).isSome = true → (pb.label? name).isSome = true →
      ¬(pa.label? name = none ∨ pb.label? name = none) := by
    intro name hname hname' hnone
    rcases hnone with hnone | hnone
    · simp [hnone] at hname
    · simp [hnone] at hname'
  rcases Program.ofSource_append ha hb with
    ⟨p, hp, hinstructions, hlabels, hdirectives, hdisjoint⟩ | ⟨line, name, hname, hname', herror⟩
  · refine ⟨?_, fun _ => ⟨p, hp, hinstructions, hlabels, hdirectives⟩⟩
    rintro ⟨name, hname, hname'⟩
    exact absurd (hdisjoint name) (hcommon name hname hname')
  · refine ⟨fun _ => ⟨line, name, hname, hname', herror⟩, fun hdisjoint => ?_⟩
    exact absurd (hdisjoint name) (hcommon name hname hname')

/-- A source with a label at its end, which its only instruction calls. -/
def callEnd : String := "start: call end\n.globl start\nend:"

/-- The program of `callEnd`. -/
def callEndProgram : Program where
  instructions := #[⟨.call, [.label "end" 1], 1⟩]
  labels := (Labels.empty.insert "start" 0).insert "end" 1
  directives := [⟨"globl", ["start"], 2⟩]

/-- A source with a loop that has no end. -/
def loopBack : String := "; for ever\nback: jmp back"

/-- The program of `loopBack`. -/
def loopBackProgram : Program where
  instructions := #[⟨.jmp, [.label "back" 0], 2⟩]
  labels := Labels.empty.insert "back" 0

/-- Behind `callEnd` there may be a loop or a branch to its first instruction, but not a second
`callEnd`. -/
theorem callEnd_is_read_in_parts :
    (∃ line name,
        Program.ofSource (callEnd ++ "\n" ++ callEnd) = .error (.duplicateLabel line name)) ∧
      (∃ p, Program.ofSource (callEnd ++ "\n" ++ loopBack) = .ok p ∧
        p.instructions = #[⟨.call, [.label "end" 1], 1⟩, ⟨.jmp, [.label "back" 1], 5⟩] ∧
        p.label? "end" = some 1 ∧ p.label? "back" = some 1 ∧
        p.directives = callEndProgram.directives) ∧
      Program.ofSource "jmp start" = .error (.undefinedLabel 1 "start") ∧
      ∃ p, Program.ofSource (callEnd ++ "\n" ++ "jmp start") = .ok p ∧
        callEndProgram.instructions.toList <+: p.instructions.toList ∧
        p.label? "end" = some 1 := by
  have hcall : Program.ofSource callEnd = .ok callEndProgram := by decide +kernel
  have hloop : Program.ofSource loopBack = .ok loopBackProgram := by decide +kernel
  have hdisjoint : ∀ name,
      callEndProgram.label? name = none ∨ loopBackProgram.label? name = none := by
    intro name
    by_cases hname : name = "back"
    · exact Or.inl (hname ▸ by decide +kernel)
    · right
      rw [Program.label?, loopBackProgram, Labels.get?_insert, if_neg hname, Labels.get?_empty]
  refine ⟨?_, ?_, by decide +kernel, ?_⟩
  · obtain ⟨line, name, -, -, herror⟩ :=
      ((concatenation_is_read_in_parts callEnd callEnd).1 _ _ hcall hcall).1
        ⟨"end", by decide +kernel, by decide +kernel⟩
    exact ⟨line, name, herror⟩
  · obtain ⟨p, hp, hinstructions, hlabels, hdirectives⟩ :=
      ((concatenation_is_read_in_parts callEnd loopBack).1 _ _ hcall hloop).2 hdisjoint
    refine ⟨p, hp, ?_, ?_, ?_, ?_⟩
    · rw [hinstructions]
      decide +kernel
    · rw [hlabels]
      decide +kernel
    · rw [hlabels]
      decide +kernel
    · rw [hdirectives]
      decide +kernel
  · have hp : ∃ p, Program.ofSource (callEnd ++ "\n" ++ "jmp start") = .ok p := ⟨_, rfl⟩
    obtain ⟨p, hp⟩ := hp
    obtain ⟨hinstructions, -, hlabels⟩ :=
      (concatenation_is_read_in_parts callEnd "jmp start").2 callEndProgram p hcall hp
    exact ⟨p, hp, hinstructions, hlabels "end" 1 (by decide +kernel)⟩

end X64
