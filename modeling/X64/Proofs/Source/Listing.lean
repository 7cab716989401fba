import X64.Proofs.Source.Assembly

/-!
# Listings

A listing prints a whole program: for each index the labels that stand there, one on a line, and
then the instruction. `Instruction.ofText_render` and `Instruction.instruction?_render` read one
printed instruction back, `adds_labels` and `adds_instruction` say what a printed line adds to a
program, and `Program.adds_listing` goes through a listing index by index. Directives, line numbers
and the name of the source file are not printed.
-/

namespace X64

/-! ## Printed instructions -/

namespace Instruction

/-- The texts of the operands. -/
def texts (i : Instruction) : List (List Char) := i.operands.map fun o => o.render.toList

/-- The blank between the mnemonic and the operands, if there are any. -/
def gap (i : Instruction) : List Char := if i.operands = [] then [] else [' ']

theorem toList_render (i : Instruction) :
    i.render.toList =
      i.mnemonic.name.toList ++ (i.gap ++ [',', ' '].intercalate i.texts) := by
  unfold render gap texts
  split
  · next h => simp [h]
  · next operands hne =>
    have hne' : i.operands ≠ [] := hne
    rw [if_neg hne']
    simp [String.toList_intercalate, List.map_map, Function.comp_def]

end Instruction

namespace Instruction

open Source

variable {labels : Labels} {i : Instruction}

theorem isItem_of_mem_texts (h : i.Fits labels) : ∀ t ∈ i.texts, IsItem t := by
  intro t ht
  obtain ⟨o, ho, rfl⟩ := List.mem_map.1 ht
  exact isItem_render (h.2 o ho)

/-- An instruction with blanks of any kind around its mnemonic is a line with no label and one
instruction. -/
theorem ofText_spaced (h : i.Fits labels) {pad gap : List Char} (hpad : Text.Blanks pad)
    (hgap : Text.Blanks gap) (hsep : i.operands = [] ∨ gap ≠ []) (number : Nat) :
    Line.ofText number
        (pad ++ (i.mnemonic.name.toList ++ (gap ++ [',', ' '].intercalate i.texts))) =
      ⟨number, [], some (.instruction i.mnemonic.name.toList i.texts)⟩ := by
  have hitems := isItem_of_mem_texts h
  have hsep' : [',', ' '].intercalate i.texts = [] ∨ gap ≠ [] := by
    refine hsep.imp_left fun hnil => ?_
    simp [texts, hnil]
  have hmark : ∀ c ∈ [',', ' '].intercalate i.texts, isCommentMark c = false := by
    intro c hc
    rcases Text.mem_intercalate hc with rfl | rfl | ⟨t, ht, hct⟩
    · decide
    · decide
    · exact (hitems t ht).no_mark c hct
  rw [Line.ofText_instruction number hpad
    (Mnemonic.forall_mem_name i.mnemonic).2 (Mnemonic.forall_mem_name i.mnemonic).1 hgap hsep'
    hmark]
  rw [Text.items_intercalate (fun t ht => (hitems t ht).ne_nil)
    (fun t ht => (hitems t ht).tight) fun t ht => (hitems t ht).no_comma]

theorem ofText_pad_render (h : i.Fits labels) {pad : List Char} (hpad : Text.Blanks pad)
    (number : Nat) :
    Line.ofText number (pad ++ i.render.toList) =
      ⟨number, [], some (.instruction i.mnemonic.name.toList i.texts)⟩ := by
  have hgap : Text.Blanks i.gap := by
    unfold gap
    split <;> decide
  have hsep : i.operands = [] ∨ i.gap ≠ [] := by
    unfold gap
    split
    · next hnil => exact Or.inl hnil
    · exact Or.inr (by simp)
  rw [toList_render]
  exact ofText_spaced h hpad hgap hsep number

theorem ofText_render (h : i.Fits labels) (number : Nat) :
    Line.ofText number i.render.toList =
      ⟨number, [], some (.instruction i.mnemonic.name.toList i.texts)⟩ :=
  ofText_pad_render h Text.blanks_nil number

theorem newline_not_mem_render (h : i.Fits labels) : '\n' ∉ i.render.toList := by
  rw [toList_render]
  intro hmem
  rcases List.mem_append.1 hmem with hmem | hmem
  · exact absurd ((Mnemonic.forall_mem_name i.mnemonic).2 _ hmem) (by decide)
  · rcases List.mem_append.1 hmem with hmem | hmem
    · unfold gap at hmem
      split at hmem <;> simp at hmem
    · rcases Text.mem_intercalate hmem with heq | heq | ⟨t, ht, hmem⟩
      · exact absurd heq (by decide)
      · exact absurd heq (by decide)
      · exact (isItem_of_mem_texts h t ht).no_newline hmem

/-- A printed instruction is read back, up to its line number. -/
theorem instruction?_render (h : i.Fits labels) (number : Nat) :
    instruction? labels number i.mnemonic.name.toList i.texts = .ok { i with line := number } := by
  rw [instruction?_eq_ok_iff]
  refine ⟨Mnemonic.ofName?_name i.mnemonic, ?_, ?_, rfl⟩
  · rw [texts, List.length_map]
    exact h.1
  · rw [texts, List.forall₂_map_left_iff, List.forall₂_same]
    intro o ho
    exact operand?_render (h.2 o ho)

end Instruction

/-! ## What printed lines add -/

namespace Source

theorem toList_label (name : String) : (name ++ ":").toList = name.toList ++ [':'] := by
  simp

/-- A line with one label adds it. -/
theorem adds_label (labels : Labels) {s : Labels} {name : String}
    (hname : isLabelName name.toList = true) (hfresh : s.get? name = none) (index number : Nat) :
    Adds labels index s (s.insert name index) [] []
      [Line.ofText number (name ++ ":").toList] := by
  rw [toList_label, Line.ofText_label hname]
  refine ⟨?_, rfl, rfl⟩
  have hnames : Line.names ⟨number, [name.toList], none⟩ = [name] := by
    rw [Line.names, List.map_singleton, String.ofList_toList]
  rw [collectLabels_cons, bind_eq_ok_iff]
  refine ⟨s.insert name index, ?_, rfl⟩
  rw [defineLabels_eq_ok_iff, hnames, Labels.extends_cons, Labels.extends_nil]
  exact ⟨hfresh, rfl⟩

/-- Lines with one label each add their labels, all with the same index. -/
theorem adds_labels (labels : Labels) {names : List String}
    (hname : ∀ name ∈ names, isLabelName name.toList = true) {s t : Labels} {index : Nat}
    (h : s.Extends names index t) (n : Nat) :
    Adds labels index s t [] [] (Line.ofTexts n (names.map fun name => (name ++ ":").toList)) := by
  induction names generalizing s n with
  | nil =>
    rw [Labels.extends_nil.1 h]
    exact Adds.nil labels index t
  | cons name names ih =>
    obtain ⟨hfresh, hrest⟩ := Labels.extends_cons.1 h
    have hfirst := adds_label labels (hname name List.mem_cons_self) hfresh index (n + 1)
    rw [List.map_cons, Line.ofTexts_cons]
    exact hfirst.append (ih (fun key hkey => hname key (List.mem_cons_of_mem _ hkey)) hrest (n + 1))

/-- A line with one instruction adds it. -/
theorem adds_of_ofText {labels : Labels} {i : Instruction} (h : i.Fits labels) {number : Nat}
    {cs : List Char} (hline : Line.ofText number cs =
      ⟨number, [], some (.instruction i.mnemonic.name.toList i.texts)⟩) (index : Nat) (s : Labels) :
    Adds labels index s s [{ i with line := number }] [] [Line.ofText number cs] := by
  rw [hline]
  refine ⟨rfl, ?_, rfl⟩
  rw [instructions?_cons_instruction rfl, Instruction.instruction?_render h]
  rfl

theorem adds_instruction {labels : Labels} {i : Instruction} (h : i.Fits labels) {pad : List Char}
    (hpad : Text.Blanks pad) (index : Nat) (s : Labels) (number : Nat) :
    Adds labels index s s [{ i with line := number }] []
      [Line.ofText number (pad ++ i.render.toList)] :=
  adds_of_ofText h (Instruction.ofText_pad_render h hpad number) index s

/-- Lines with one instruction each add their instructions. -/
theorem adds_instructions {labels : Labels} {is : List Instruction}
    (h : ∀ i ∈ is, i.Fits labels) {pad : List Char} (hpad : Text.Blanks pad) (index : Nat)
    (s : Labels) (n : Nat) :
    Adds labels index s s (is.mapIdx fun j i => { i with line := n + j + 1 }) []
      (Line.ofTexts n (is.map fun i => pad ++ i.render.toList)) := by
  induction is generalizing index n with
  | nil => exact Adds.nil labels index s
  | cons i is ih =>
    have hfirst := adds_instruction (h i List.mem_cons_self) hpad index s (n + 1)
    have hrest := ih (fun j hj => h j (List.mem_cons_of_mem _ hj)) (index + 1) (n + 1)
    rw [List.map_cons, Line.ofTexts_cons, List.mapIdx_cons]
    have hnumbers : is.mapIdx (fun j i => { i with line := n + (j + 1) + 1 }) =
        is.mapIdx fun j i => { i with line := n + 1 + j + 1 } := by
      congr 1
      funext j i
      rw [Nat.add_right_comm n 1 j, Nat.add_assoc n j 1]
    rw [hnumbers]
    exact hfirst.append hrest

end Source

/-! ## Listings -/

/-- The names of the labels that stand for an index, in ascending order. -/
def Labels.namesAt (t : Labels) (index : Nat) : List String :=
  (t.entries.filter fun e => e.2 == index).map Prod.fst

theorem Labels.mem_namesAt {t : Labels} {name : String} {index : Nat} :
    name ∈ t.namesAt index ↔ t.get? name = some index := by
  rw [get?_eq_some_iff]
  simp [namesAt]

theorem Labels.nodup_namesAt (t : Labels) (index : Nat) : (t.namesAt index).Nodup := by
  have hsorted : (t.namesAt index).Pairwise (· < ·) := by
    rw [namesAt, List.pairwise_map]
    exact t.sorted.filter _
  refine List.Pairwise.imp (fun {a b} hlt => ?_) hsorted
  intro heq
  exact String.lt_irrefl _ (heq ▸ hlt)

namespace Program

/-- The lines that are printed for an index: the given labels, and the instruction if there is
one. -/
def listingAt (p : Program) (names : List String) (index : Nat) : List String :=
  names.map (· ++ ":") ++ (p.instructions[index]?.map Instruction.render).toList

/-- The text of a program. The labels of each index are printed in a given order. -/
def listing (p : Program) (order : Nat → List String) : String :=
  String.join (((List.range (p.size + 1)).flatMap fun index =>
    p.listingAt (order index) index).map (· ++ "\n"))

/-- The lines of a listing before the given index. -/
def listingBefore (p : Program) (order : Nat → List String) (index : Nat) : List (List Char) :=
  ((List.range index).flatMap fun i => p.listingAt (order i) i).map String.toList

theorem toList_listing (p : Program) (order : Nat → List String) :
    (p.listing order).toList =
      (p.listingBefore order (p.size + 1)).flatMap fun line => line ++ ['\n'] := by
  simp [listing, listingBefore, String.toList_join, List.flatMap_map]

theorem listingBefore_succ (p : Program) (order : Nat → List String) (index : Nat) :
    p.listingBefore order (index + 1) =
      p.listingBefore order index ++ (p.listingAt (order index) index).map String.toList := by
  simp [listingBefore, List.range_succ, List.flatMap_append]

variable {p : Program} {order : Nat → List String}

/-- What the lines of one index add: its labels, and its instruction if there is one. -/
theorem adds_listingAt (hp : p.WellFormed) {index : Nat}
    (horder : (order index).Perm (p.labels.namesAt index)) {s t : Labels}
    (h : s.Extends (order index) index t) (n : Nat) :
    ∃ is, Source.Adds p.labels index s t is []
        (Source.Line.ofTexts n ((p.listingAt (order index) index).map String.toList)) ∧
      is.map Instruction.unplaced =
        (p.instructions[index]?.map Instruction.unplaced).toList := by
  have hname : ∀ name ∈ order index, Source.isLabelName name.toList = true := by
    intro name hname
    exact hp.label_name name index (Labels.mem_namesAt.1 (horder.mem_iff.1 hname))
  have hlabels := Source.adds_labels p.labels hname h n
  rw [listingAt, List.map_append, Source.Line.ofTexts_append, List.map_map]
  cases hi : p.instructions[index]? with
  | none =>
    refine ⟨[], ?_, rfl⟩
    exact hlabels.append (Source.Adds.nil _ _ _)
  | some i =>
    have hfits : i.Fits p.labels := hp.fits i (Array.mem_of_getElem? hi)
    exact ⟨_, hlabels.append (Source.adds_instruction hfits Text.blanks_nil _ t _), rfl⟩

/-- What the lines before an index add: the labels that stand for a smaller index, and the
instructions before it. -/
theorem adds_listingBefore (hp : p.WellFormed)
    (horder : ∀ index, index ≤ p.size → (order index).Perm (p.labels.namesAt index))
    {index : Nat} (hindex : index ≤ p.size + 1) :
    ∃ t is, Source.Adds p.labels 0 .empty t is []
        (Source.Line.ofTexts 0 (p.listingBefore order index)) ∧
      is.map Instruction.unplaced =
        (p.instructions.toList.take index).map Instruction.unplaced ∧
      t.UpTo p.labels index := by
  induction index with
  | zero => exact ⟨.empty, [], Source.Adds.nil _ _ _, rfl, Labels.UpTo.zero p.labels⟩
  | succ index ih =>
    obtain ⟨s, is, hs, his, hupTo⟩ := ih (by omega)
    have hperm : (order index).Perm (p.labels.namesAt index) := horder index (by omega)
    have hnodup : (order index).Nodup := hperm.nodup_iff.2 (p.labels.nodup_namesAt index)
    have hnames : ∀ name, name ∈ order index ↔ p.labels.get? name = some index := by
      intro name
      rw [hperm.mem_iff, Labels.mem_namesAt]
    obtain ⟨t, hst⟩ :=
      Labels.exists_extends hnodup (fun name hname => hupTo.fresh ((hnames name).1 hname)) index
    obtain ⟨js, ht, hjs⟩ := adds_listingAt hp hperm hst (0 + (p.listingBefore order index).length)
    have hlength : is.length = index := by
      have hmap := congrArg List.length his
      simp only [List.length_map, List.length_take, Array.length_toList] at hmap
      unfold size at hindex
      omega
    refine ⟨t, is ++ js, ?_, ?_, hupTo.succ hst hnames⟩
    · rw [listingBefore_succ, Source.Line.ofTexts_append]
      exact hs.append (by rw [hlength, Nat.zero_add]; exact ht)
    · rw [List.map_append, his, hjs, List.take_add_one, List.map_append]
      simp [Option.toList_map]

theorem newline_not_mem_listingBefore (hp : p.WellFormed)
    (horder : ∀ index, index ≤ p.size → (order index).Perm (p.labels.namesAt index)) :
    ∀ line ∈ p.listingBefore order (p.size + 1), '\n' ∉ line := by
  intro line hline
  simp only [listingBefore, List.mem_map, List.mem_flatMap, List.mem_range] at hline
  obtain ⟨text, ⟨index, hindex, htext⟩, rfl⟩ := hline
  rw [listingAt, List.mem_append] at htext
  rcases htext with htext | htext
  · obtain ⟨name, hname, rfl⟩ := List.mem_map.1 htext
    have hlabel := Labels.mem_namesAt.1 ((horder index (by omega)).mem_iff.1 hname)
    obtain ⟨-, hrest⟩ := Source.isLabelRest_of_isLabelName (hp.label_name name index hlabel)
    rw [Source.toList_label]
    intro hmem
    rcases List.mem_append.1 hmem with hmem | hmem
    · exact absurd (hrest _ hmem) (by decide)
    · exact absurd hmem (by decide)
  · rw [Option.mem_toList, Option.map_eq_some_iff] at htext
    obtain ⟨i, hi, rfl⟩ := htext
    exact Instruction.newline_not_mem_render (hp.fits i (Array.mem_of_getElem? hi))

/-- A listing is read as the program that it was printed from, up to line numbers and
directives. -/
theorem ofSource_listing (hp : p.WellFormed)
    (horder : ∀ index, index ≤ p.size → (order index).Perm (p.labels.namesAt index)) :
    ∃ q, ofSource (p.listing order) = .ok q ∧ q.labels = p.labels ∧
      q.instructions.map Instruction.unplaced = p.instructions.map Instruction.unplaced ∧
      q.directives = [] := by
  obtain ⟨t, is, hadds, his, hupTo⟩ := adds_listingBefore hp horder (Nat.le_refl _)
  obtain rfl : t = p.labels :=
    hupTo.eq fun key i h => Nat.lt_succ_of_le (hp.label_le key i h)
  have hlines : Text.lines (p.listing order).toList = p.listingBefore order (p.size + 1) := by
    rw [toList_listing]
    exact Text.lines_flatMap (newline_not_mem_listingBefore hp horder)
  refine ⟨{ instructions := is.toArray, labels := p.labels }, ?_, rfl, ?_, rfl⟩
  · rw [ofSource, Source.Line.ofSource_eq_ofTexts, hlines, Source.assemble_iff_adds]
    exact ⟨hadds, rfl⟩
  · have htake : p.instructions.toList.take (p.size + 1) = p.instructions.toList :=
      List.take_of_length_le (by simp [size])
    rw [htake] at his
    apply Array.toList_inj.1
    simpa using his

end Program

/-- Printing and reading agree. A printed instruction is a line without labels that is read as that
instruction again, and the listing of a program that was read from a source is read as a program
with the same labels and the same instructions, up to line numbers, and without directives. -/
theorem printed_programs_are_read_back :
    (∀ (labels : Labels) (i : Instruction) (number : Nat), i.Fits labels →
      ∃ name texts,
        Source.Line.ofText number i.render.toList =
            ⟨number, [], some (.instruction name texts)⟩ ∧
          Source.instruction? labels number name texts = .ok { i with line := number }) ∧
      ∀ (source : String) (p : Program) (order : Nat → List String),
        Program.ofSource source = .ok p →
        (∀ index, index ≤ p.size → (order index).Perm (p.labels.namesAt index)) →
          ∃ q, Program.ofSource (p.listing order) = .ok q ∧ q.labels = p.labels ∧
            q.instructions.map Instruction.unplaced = p.instructions.map Instruction.unplaced ∧
            q.directives = [] := by
  constructor
  · intro labels i number h
    exact ⟨_, _, Instruction.ofText_render h number, Instruction.instruction?_render h number⟩
  · intro source p order h horder
    exact Program.ofSource_listing (Program.wellFormed_of_ofSource h) horder

/-- A program with two labels at one place and one at its end. It has the least word as an operand
and as a displacement. -/
def twoLabels : Program where
  instructions := #[
    ⟨.mov, [.memory ⟨some .dword, some .rbp, Int64.minValue⟩, .immediate Int64.minValue], 2⟩,
    ⟨.jumpIf .equal, [.label "a" 0], 3⟩]
  labels := .ofList [("a", 0), ("b", 0), ("end", 2)]

/-- A source for it, in another spelling than that of its listings. -/
def twoLabelsSource : String :=
  "a: b:\n\tMOV Dword ptr[RBP-0x8000000000000000], -9223372036854775808 # least\n\tjz a\nend:"

theorem twoLabels_is_read_back :
    (∃ name texts,
        Source.Line.ofText 7 (Instruction.render ⟨.jumpIf .equal, [.label "a" 0], 3⟩).toList =
            ⟨7, [], some (.instruction name texts)⟩ ∧
          Source.instruction? twoLabels.labels 7 name texts =
            .ok ⟨.jumpIf .equal, [.label "a" 0], 7⟩) ∧
      Program.ofSource twoLabelsSource = .ok twoLabels ∧
      ∃ q, Program.ofSource
          (twoLabels.listing fun index => (twoLabels.labels.namesAt index).reverse) = .ok q ∧
        q.labels = twoLabels.labels ∧
        q.instructions.map Instruction.unplaced =
          twoLabels.instructions.map Instruction.unplaced ∧
        q.directives = [] := by
  have hfits : (⟨.jumpIf .equal, [.label "a" 0], 3⟩ : Instruction).Fits twoLabels.labels := by
    decide +kernel
  have hsource : Program.ofSource twoLabelsSource = .ok twoLabels := by
    decide +kernel
  refine ⟨printed_programs_are_read_back.1 _ _ 7 hfits, hsource, ?_⟩
  refine printed_programs_are_read_back.2 _ _ _ hsource fun index _ => ?_
  exact List.reverse_perm _

end X64
