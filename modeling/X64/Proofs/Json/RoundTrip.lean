import X64.Json.Program
import X64.Proofs.Labels

/-!
# Programs read back from JSON

Decoding a program that was encoded gives the program again, one lemma for each kind of object.

* `Fields.lookup_perm` is about the fields of an object: as long as no two of them have the same
  key, their order does not matter.
* `Labels.ofJson?_spec` says which label tables are read from an object, and from it follows
  `Labels.ofJson?_toJson`.
* `Program.InRange` bounds the numbers of a program that JSON text holds as 64-bit integers.
  `Program.ofJson?_toJson` needs it, and nothing else.
-/

namespace X64

namespace Json

/-! ## Fields and arrays -/

/-- The order of fields with different keys does not matter. -/
theorem Fields.lookup_perm {fields fields' : Fields} (h : fields.Perm fields')
    (hkeys : (fields.map Prod.fst).Nodup) (key : String) :
    fields.lookup key = fields'.lookup key := by
  induction h with
  | nil => rfl
  | cons field _ ih =>
    obtain ⟨name, value⟩ := field
    rw [Labels.lookup_cons, Labels.lookup_cons, ih (List.nodup_cons.1 hkeys).2]
  | swap first second rest =>
    obtain ⟨name, value⟩ := first
    obtain ⟨name', value'⟩ := second
    have hne : name' ≠ name := by
      rintro rfl
      exact (List.nodup_cons.1 hkeys).1 List.mem_cons_self
    simp only [Labels.lookup_cons]
    by_cases hkey : key = name
    · rw [if_neg fun heq => hne (heq.symm.trans hkey), if_pos hkey, if_pos hkey]
    · rw [if_neg hkey, if_neg hkey]
  | trans hfirst _ ih ih' =>
    exact (ih hkeys).trans (ih' ((hfirst.map Prod.fst).nodup_iff.1 hkeys))

/-- The items of an array are read back if each of them is. -/
theorem array?_map {α : Type} {encode : α → Json} {decode : Json → Option α} {items : List α}
    (h : ∀ a ∈ items, decode (encode a) = some a) :
    array? decode (.array (items.map encode)) = some items := by
  change (items.map encode).mapM decode = some items
  induction items with
  | nil => rfl
  | cons a items ih =>
    rw [List.map_cons, List.mapM_cons, h a List.mem_cons_self,
      ih fun b hb => h b (List.mem_cons_of_mem a hb)]
    rfl

theorem Fields.optional?_of_null {α : Type} {decode : Json → Option α} {fields : Fields}
    {name : String} (h : (fields.lookup name).getD .null = .null) :
    fields.optional? name decode = some none := by
  rw [optional?]
  cases hlookup : fields.lookup name with
  | none => rfl
  | some value =>
    rw [hlookup] at h
    obtain rfl : value = .null := h
    rfl

theorem Fields.optional?_of_ne_null {α : Type} {decode : Json → Option α} {fields : Fields}
    {name : String} {value : Json} (h : fields.lookup name = some value) (hne : value ≠ .null) :
    fields.optional? name decode = (decode value).map some := by
  rw [optional?, h]
  cases value with
  | null => exact absurd rfl hne
  | _ => rfl

/-- A field that holds a value or null is read back. -/
theorem Fields.optional?_optional {α : Type} {encode : α → Json} {decode : Json → Option α}
    (hencode : ∀ a, encode a ≠ .null) (hdecode : ∀ a, decode (encode a) = some a)
    {fields : Fields} {name : String} {o : Option α}
    (h : fields.lookup name = some (.optional encode o)) :
    fields.optional? name decode = some o := by
  cases o with
  | none =>
    refine optional?_of_null ?_
    rw [h]
    rfl
  | some a =>
    rw [optional?_of_ne_null h (hencode a)]
    exact congrArg (Option.map some) (hdecode a)

end Json

/-! ## Label tables -/

namespace Labels

/-- A list of entries with different names is the table of its look-ups. -/
theorem get?_ofList {entries : List (String × Nat)} (hnames : (entries.map Prod.fst).Nodup)
    (name : String) : (ofList entries).get? name = entries.lookup name := by
  have hfold : ∀ t : Labels, (entries.foldl (fun t e => t.insert e.1 e.2) t).get? name =
      (entries.lookup name).or (t.get? name) := by
    induction entries with
    | nil => exact fun t => rfl
    | cons entry rest ih =>
      obtain ⟨other, index⟩ := entry
      obtain ⟨hnot, hrest⟩ := List.nodup_cons.1 hnames
      intro t
      rw [List.foldl_cons, ih hrest, get?_insert, lookup_cons]
      by_cases hname : name = other
      · have hnone : rest.lookup name = none := by
          refine List.lookup_eq_none_iff.2 fun e he => ?_
          have hmem : e.1 ∈ rest.map Prod.fst := List.mem_map_of_mem he
          have hne : name ≠ e.1 := by
            rintro rfl
            exact hnot (hname ▸ hmem)
          simpa using hne
        rw [if_pos hname, if_pos hname, hnone]
        rfl
      · rw [if_neg hname, if_neg hname]
  rw [ofList, hfold, get?_empty, Option.or_none]

/-- The entries of an object of natural numbers. -/
theorem mapM_natural?_cases (fields : Json.Fields) :
    (∃ entries, (fields.mapM fun (name, j) => j.natural?.map fun n => (name, n)) = some entries ∧
        entries.map Prod.fst = fields.map Prod.fst ∧
        (∀ name, entries.lookup name = (fields.lookup name).bind Json.natural?) ∧
        ∀ e ∈ fields, e.2.natural?.isSome = true) ∨
      (fields.mapM fun (name, j) => j.natural?.map fun n => (name, n)) = none ∧
        ∃ e ∈ fields, e.2.natural? = none := by
  induction fields with
  | nil => exact Or.inl ⟨[], rfl, rfl, fun _ => rfl, by simp⟩
  | cons field rest ih =>
    obtain ⟨name, j⟩ := field
    rw [List.mapM_cons]
    cases hj : j.natural? with
    | none =>
      refine Or.inr ⟨?_, _, List.mem_cons_self, hj⟩
      simp only [hj]
      rfl
    | some n =>
      simp only [hj]
      rcases ih with ⟨entries, hentries, hnames, hlookup, hall⟩ | ⟨hnone, e, he, hbad⟩
      · refine Or.inl ⟨(name, n) :: entries, by rw [hentries]; rfl, ?_, fun key => ?_, ?_⟩
        · rw [List.map_cons, List.map_cons, hnames]
        · rw [lookup_cons, lookup_cons, hlookup key]
          split
          · exact hj.symm
          · rfl
        · rintro e he
          rcases List.mem_cons.1 he with rfl | he
          · rw [hj]
            rfl
          · exact hall e he
      · exact Or.inr ⟨by rw [hnone]; rfl, e, List.mem_cons_of_mem _ he, hbad⟩

/-- An object is read as a label table if all its values are natural numbers. The table has the
fields of the object as its labels. -/
theorem ofJson?_spec {fields : Json.Fields} (hkeys : (fields.map Prod.fst).Nodup) {t : Labels} :
    ofJson? (.object fields) = some t ↔
      (∀ e ∈ fields, e.2.natural?.isSome = true) ∧
        ∀ name, t.get? name = (fields.lookup name).bind Json.natural? := by
  have hread : ofJson? (.object fields) = Option.map ofList
      (fields.mapM fun (name, j) => j.natural?.map fun n => (name, n)) := by
    rw [ofJson?, Option.map_eq_bind]
    rfl
  rw [hread]
  rcases mapM_natural?_cases fields with
    ⟨entries, hentries, hnames, hlookup, hall⟩ | ⟨hnone, e, he, hbad⟩
  · have hget := get?_ofList (hnames ▸ hkeys)
    rw [hentries, Option.map_some, Option.some_inj]
    constructor
    · rintro rfl
      exact ⟨hall, fun name => (hget name).trans (hlookup name)⟩
    · rintro ⟨-, ht⟩
      exact ext_get? fun name => by rw [hget, hlookup, ht]
  · rw [hnone, Option.map_none]
    refine iff_of_false (by simp) ?_
    rintro ⟨hall, -⟩
    have hsome := hall e he
    rw [hbad] at hsome
    exact absurd hsome (by decide)

theorem ofJson?_toJson {t : Labels} (h : ∀ name index, t.get? name = some index →
    index < UInt64.size) : ofJson? t.toJson = some t := by
  have hkeys : ((t.entries.map fun e => (e.1, Json.natural e.2)).map Prod.fst).Nodup := by
    rw [List.map_map]
    exact t.nodup_names
  change ofJson? (.object (t.entries.map fun e => (e.1, Json.natural e.2))) = some t
  rw [ofJson?_spec hkeys]
  constructor
  · intro e he
    obtain ⟨⟨name, index⟩, hmem, rfl⟩ := List.mem_map.1 he
    have hindex := h name index (get?_eq_some_iff.2 hmem)
    rw [Json.natural?_natural hindex]
    rfl
  · intro name
    have hlookup : ∀ entries : List (String × Nat),
        (entries.map fun e => (e.1, Json.natural e.2)).lookup name =
          (entries.lookup name).map Json.natural := by
      intro entries
      induction entries with
      | nil => rfl
      | cons entry rest ih =>
        obtain ⟨other, index⟩ := entry
        rw [List.map_cons, lookup_cons, lookup_cons, ih]
        split <;> rfl
    rw [hlookup, ← get?]
    cases hname : t.get? name with
    | none => rfl
    | some index => exact (Json.natural?_natural (h name index hname)).symm

end Labels

/-! ## Records -/

@[simp] theorem View.ofJson?_toJson (v : View) : ofJson? v.toJson = some v := by
  simp only [ofJson?, Option.bind_eq_bind, Option.bind_eq_some_iff]
  exact ⟨_, rfl, v.register, Register.ofJson?_toJson _, v.width, Width.ofJson?_toJson _, rfl⟩

@[simp] theorem Reference.ofJson?_toJson (m : Reference) : ofJson? m.toJson = some m := by
  have hwidth : ∀ w : Width, w.toJson ≠ .null := fun w h => by cases h
  have hbase : ∀ r : Register, r.toJson ≠ .null := fun r h => by cases h
  simp only [ofJson?, Option.bind_eq_bind, Option.bind_eq_some_iff]
  exact ⟨_, rfl, m.width, Json.Fields.optional?_optional hwidth Width.ofJson?_toJson rfl,
    m.base, Json.Fields.optional?_optional hbase Register.ofJson?_toJson rfl,
    m.displacement, Json.int64?_toInt _, rfl⟩

/-- The numbers of an operand that are held as 64-bit integers. Those of an immediate and of a
reference always are. -/
def Operand.InRange : Operand → Prop
  | .label _ target => target < UInt64.size
  | .register _ | .immediate _ | .memory _ => True

instance : DecidablePred Operand.InRange
  | .label _ target => inferInstanceAs (Decidable (target < UInt64.size))
  | .register _ | .immediate _ | .memory _ => inferInstanceAs (Decidable True)

theorem Operand.ofJson?_toJson {o : Operand} (h : o.InRange) : ofJson? o.toJson = some o := by
  cases o with
  | register v => exact congrArg (Option.map _) v.ofJson?_toJson
  | immediate value => exact congrArg (Option.map _) (Json.int64?_toInt value)
  | memory m => exact congrArg (Option.map _) m.ofJson?_toJson
  | label name target =>
    simp only [ofJson?, toJson, Option.bind_eq_bind, Option.bind_eq_some_iff]
    exact ⟨_, rfl, name, rfl, target, Json.natural?_natural h, rfl⟩

/-- The line number and the targets of an instruction are held as 64-bit integers. -/
structure Instruction.InRange (i : Instruction) : Prop where
  line_lt : i.line < UInt64.size
  operands : ∀ o ∈ i.operands, o.InRange

theorem Instruction.ofJson?_toJson {i : Instruction} (h : i.InRange) :
    ofJson? i.toJson = some i := by
  have hoperands := Json.array?_map fun o ho => Operand.ofJson?_toJson (h.operands o ho)
  simp only [ofJson?, Option.bind_eq_bind, Option.bind_eq_some_iff]
  exact ⟨_, rfl, i.mnemonic, Mnemonic.ofJson?_toJson _, i.operands, hoperands, i.line,
    Json.natural?_natural h.line_lt, rfl⟩

theorem Directive.ofJson?_toJson {d : Directive} (h : d.line < UInt64.size) :
    ofJson? d.toJson = some d := by
  have hargs : Json.array? Json.string? (.array (d.args.map .string)) = some d.args :=
    Json.array?_map fun s _ => rfl
  simp only [ofJson?, Option.bind_eq_bind, Option.bind_eq_some_iff]
  exact ⟨_, rfl, d.name, rfl, d.args, hargs, d.line, Json.natural?_natural h, rfl⟩

namespace Program

/-- All numbers of a program are held as 64-bit integers. -/
structure InRange (p : Program) : Prop where
  instructions : ∀ i ∈ p.instructions, i.InRange
  label_lt : ∀ name index, p.label? name = some index → index < UInt64.size
  directive_lt : ∀ d ∈ p.directives, d.line < UInt64.size

theorem sourceFileOfJson?_metadataToJson (p : Program) :
    sourceFileOfJson? p.metadataToJson = some p.sourceFile := by
  have hstring : ∀ s : String, Json.string s ≠ .null := fun s h => by cases h
  simp only [sourceFileOfJson?, Option.bind_eq_bind, Option.bind_eq_some_iff]
  exact ⟨_, rfl, Json.Fields.optional?_optional hstring (fun _ => rfl) rfl⟩

/-- A program that was encoded is decoded again. -/
theorem ofJson?_toJson {p : Program} (h : p.InRange) : ofJson? p.toJson = some p := by
  have hinstructions :
      Json.array? Instruction.ofJson? (.array (p.instructions.toList.map Instruction.toJson)) =
        some p.instructions.toList :=
    Json.array?_map fun i hi => Instruction.ofJson?_toJson (h.instructions i (by simpa using hi))
  have hdirectives :
      Json.array? Directive.ofJson? (.array (p.directives.map Directive.toJson)) =
        some p.directives :=
    Json.array?_map fun d hd => Directive.ofJson?_toJson (h.directive_lt d hd)
  have hlabels : Labels.ofJson? p.labels.toJson = some p.labels :=
    Labels.ofJson?_toJson h.label_lt
  simp only [ofJson?, Option.bind_eq_bind, Option.bind_eq_some_iff]
  exact ⟨_, rfl, p.instructions.toList, hinstructions, p.labels, hlabels, p.directives,
    hdirectives, Option.bind_eq_some_iff.2 ⟨_, p.sourceFileOfJson?_metadataToJson, rfl⟩⟩

end Program

end X64
