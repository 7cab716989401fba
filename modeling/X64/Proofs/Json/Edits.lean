import X64.Proofs.Json.RoundTrip
import Mathlib.Logic.Relation

/-!
# Edits that decoding does not notice

The JSON form of a program may be edited before it is decoded: fields may change places, records may
get further fields, and a null may be left out where null is allowed.

* `Json.Form` lists the kinds of objects in the JSON form of a program, with the keys that are known
  there and the objects inside. `Json.Edit` is one edit of such an object or of an object inside.
* `Json.Form.read_congr` says which fields a record is read from. It covers the edits of the record
  itself. An edit further inside changes one field, and `Json.Fields.lookup_replace` says which
  look-ups see it.
* `Json.Edit.read_eq` is the step: no edit changes what is read. A sequence of edits follows.
-/

namespace X64

namespace Json

/-! ## The objects of a program -/

/-- The kinds of objects in the JSON form of a program. -/
inductive Form where
  | program
  | metadata
  | labels
  | directive
  | instruction
  | operand
  | view
  | reference
  /-- The body of an operand that is a label. -/
  | target
  deriving DecidableEq, Repr

namespace Form

/-- The keys of a record. Label tables and operands are no records: all their keys count. -/
def keys? : Form → Option (List String)
  | .program => some ["instructions", "labels", "directives", "metadata"]
  | .metadata => some ["source_file"]
  | .directive => some ["name", "args", "line"]
  | .instruction => some ["mnemonic", "operands", "line"]
  | .view => some ["register", "width"]
  | .reference => some ["width", "base", "displacement"]
  | .target => some ["name", "target"]
  | .labels | .operand => none

/-- The keys that may be left out instead of null. -/
def nullable : Form → List String
  | .metadata => ["source_file"]
  | .reference => ["width", "base"]
  | _ => []

/-- The keys under which there is an object, with the kind of that object. -/
def parts : Form → List (String × Form)
  | .program => [("labels", .labels), ("metadata", .metadata)]
  | .operand => [("Register", .view), ("Memory", .reference), ("Label", .target)]
  | _ => []

/-- The keys under which there is an array of objects, with the kind of those objects. -/
def lists : Form → List (String × Form)
  | .program => [("instructions", .instruction), ("directives", .directive)]
  | .instruction => [("operands", .operand)]
  | _ => []

end Form

/-- The fields without those under a key. -/
def Fields.without (fields : Fields) (key : String) : Fields := fields.filter fun f => f.1 != key

/-- One edit of an object of the given kind, or of an object inside it. -/
inductive Edit : Form → Json → Json → Prop
  /-- The fields of an object change places. No two of them have the same key. -/
  | reorder {form : Form} {fields fields' : Fields} (hperm : fields.Perm fields')
      (hkeys : (fields.map Prod.fst).Nodup) : Edit form (.object fields) (.object fields')
  /-- A record gets a further field, with any value. -/
  | extend {form : Form} {keys : List String} {before after : Fields} {key : String} {value : Json}
      (hkeys : form.keys? = some keys) (hkey : key ∉ keys) :
      Edit form (.object (before ++ after)) (.object (before ++ (key, value) :: after))
  /-- A null is left out. -/
  | dropNull {form : Form} {fields : Fields} {key : String} (hkey : key ∈ form.nullable)
      (hnull : fields.lookup key = some .null) :
      Edit form (.object fields) (.object (fields.without key))
  /-- Metadata that names no source file is left out. -/
  | dropMetadata {fields metadata : Fields}
      (hmetadata : fields.lookup "metadata" = some (.object metadata))
      (hnull : (metadata.lookup "source_file").getD .null = .null) :
      Edit .program (.object fields) (.object (fields.without "metadata"))
  /-- An object inside is edited. -/
  | inPart {form part : Form} {before after : Fields} {key : String} {j j' : Json}
      (hkey : (key, part) ∈ form.parts) (h : Edit part j j') :
      Edit form (.object (before ++ (key, j) :: after)) (.object (before ++ (key, j') :: after))
  /-- An object in an array inside is edited. -/
  | inList {form item : Form} {before after : Fields} {key : String} {front back : List Json}
      {j j' : Json} (hkey : (key, item) ∈ form.lists) (h : Edit item j j') :
      Edit form (.object (before ++ (key, .array (front ++ j :: back)) :: after))
        (.object (before ++ (key, .array (front ++ j' :: back)) :: after))

/-! ## Look-ups -/

namespace Fields

theorem lookup_without_self (fields : Fields) (key : String) :
    (fields.without key).lookup key = none := by
  refine List.lookup_eq_none_iff.2 fun f hf => ?_
  have hne : (f.1 != key) = true := (List.mem_filter.1 hf).2
  rwa [bne_comm]

theorem lookup_without_of_ne (fields : Fields) {key name : String} (h : name ≠ key) :
    (fields.without key).lookup name = fields.lookup name := by
  induction fields with
  | nil => rfl
  | cons field rest ih =>
    obtain ⟨other, value⟩ := field
    rw [without, List.filter_cons, Labels.lookup_cons, ← ih, without]
    by_cases hother : other = key
    · have hne : name ≠ other := fun heq => h (heq.trans hother)
      simp [hother, h]
    · rw [if_pos (by simpa using hother), Labels.lookup_cons]

theorem lookup_extend (before after : Fields) {key name : String} (value : Json) (h : name ≠ key) :
    (before ++ (key, value) :: after).lookup name = (before ++ after).lookup name := by
  rw [List.lookup_append, List.lookup_append, Labels.lookup_cons, if_neg h]

/-- A field with another value in it. Either the look-up does not see the change, or it sees just
the two values. -/
theorem lookup_replace (before after : Fields) (key name : String) (j j' : Json) :
    (before ++ (key, j) :: after).lookup name = (before ++ (key, j') :: after).lookup name ∨
      name = key ∧ (before ++ (key, j) :: after).lookup name = some j ∧
        (before ++ (key, j') :: after).lookup name = some j' := by
  simp only [List.lookup_append, Labels.lookup_cons]
  by_cases hname : name = key
  · simp only [if_pos hname]
    cases before.lookup name with
    | some value => exact Or.inl rfl
    | none => exact Or.inr ⟨hname, rfl, rfl⟩
  · rw [if_neg hname, if_neg hname]
    exact Or.inl rfl

theorem required?_congr {α : Type} {fields fields' : Fields} {name : String}
    (h : fields.lookup name = fields'.lookup name) (decode : Json → Option α) :
    fields.required? name decode = fields'.required? name decode := by
  rw [required?, required?, h]

/-- A missing field is read like null. -/
theorem optional?_congr {α : Type} {fields fields' : Fields} {name : String}
    (h : (fields.lookup name).getD .null = (fields'.lookup name).getD .null)
    (decode : Json → Option α) : fields.optional? name decode = fields'.optional? name decode := by
  by_cases hnull : (fields.lookup name).getD .null = .null
  · rw [optional?_of_null hnull, optional?_of_null (h ▸ hnull)]
  · have hsome : ∀ fields : Fields, (fields.lookup name).getD .null ≠ .null →
        fields.lookup name = some ((fields.lookup name).getD .null) := by
      intro fields hne
      cases hlookup : fields.lookup name with
      | none =>
        rw [hlookup] at hne
        exact absurd rfl hne
      | some value => rfl
    rw [optional?_of_ne_null (hsome fields hnull) hnull,
      optional?_of_ne_null (hsome fields' (h ▸ hnull)) (h ▸ hnull), h]

theorem required?_replace {α : Type} {decode : Json → Option α} {key name : String} {j j' : Json}
    (h : name = key → decode j = decode j') (before after : Fields) :
    required? (before ++ (key, j) :: after) name decode =
      required? (before ++ (key, j') :: after) name decode := by
  rcases lookup_replace before after key name j j' with hsame | ⟨hname, hj, hj'⟩
  · exact required?_congr hsame decode
  · rw [required?, required?, hj, hj']
    exact h hname

end Fields

theorem array?_replace {α : Type} {decode : Json → Option α} {j j' : Json}
    (h : decode j = decode j') (front back : List Json) :
    array? decode (.array (front ++ j :: back)) = array? decode (.array (front ++ j' :: back)) := by
  simp only [array?, List.mapM_append, List.mapM_cons, h]

/-! ## Reading -/

namespace Form

/-- The type of what an object of the given kind is read as. -/
def Value : Form → Type
  | .program => Program
  | .metadata => Option String
  | .labels => Labels
  | .directive => Directive
  | .instruction => Instruction
  | .operand | .target => Operand
  | .view => View
  | .reference => Reference

/-- Reads an object of the given kind. -/
def read : (form : Form) → Json → Option form.Value
  | .program => Program.ofJson?
  | .metadata => Program.sourceFileOfJson?
  | .labels => Labels.ofJson?
  | .directive => Directive.ofJson?
  | .instruction => Instruction.ofJson?
  | .operand => Operand.ofJson?
  | .target => fun body => Operand.ofJson? (.object [("Label", body)])
  | .view => View.ofJson?
  | .reference => Reference.ofJson?

/-- What is seen under a key of a record. -/
def seen (form : Form) (fields : Fields) (key : String) : Option Json :=
  if key ∈ form.nullable then some ((fields.lookup key).getD .null) else fields.lookup key

end Form

end Json

open Json

/-- What a program is read from. -/
theorem Program.ofJson?_congr {fields fields' : Fields}
    (hinstructions : fields.required? "instructions" (array? Instruction.ofJson?) =
      fields'.required? "instructions" (array? Instruction.ofJson?))
    (hlabels : fields.required? "labels" Labels.ofJson? = fields'.required? "labels" Labels.ofJson?)
    (hdirectives : fields.required? "directives" (array? Directive.ofJson?) =
      fields'.required? "directives" (array? Directive.ofJson?))
    (hmetadata : ((fields.lookup "metadata").map sourceFileOfJson?).getD (some none) =
      ((fields'.lookup "metadata").map sourceFileOfJson?).getD (some none)) :
    ofJson? (.object fields) = ofJson? (.object fields') := by
  have hread : ∀ fields : Fields, ofJson? (.object fields) = (do
      let instructions ← fields.required? "instructions" (array? Instruction.ofJson?)
      let labels ← fields.required? "labels" Labels.ofJson?
      let directives ← fields.required? "directives" (array? Directive.ofJson?)
      let sourceFile ← ((fields.lookup "metadata").map sourceFileOfJson?).getD (some none)
      some { instructions := instructions.toArray, labels, directives, sourceFile }) := by
    intro fields
    simp only [ofJson?, record?, Option.orElse_eq_orElse, Option.orElse_some, Option.bind_eq_bind,
      Option.bind_some]
    cases fields.lookup "metadata" <;> rfl
  rw [hread, hread, hinstructions, hlabels, hdirectives, hmetadata]

/-- A program with another value in one field. -/
theorem Program.ofJson?_replace {key : String} {j j' : Json}
    (hinstructions : "instructions" = key →
      array? Instruction.ofJson? j = array? Instruction.ofJson? j')
    (hlabels : "labels" = key → Labels.ofJson? j = Labels.ofJson? j')
    (hdirectives : "directives" = key → array? Directive.ofJson? j = array? Directive.ofJson? j')
    (hmetadata : "metadata" = key → sourceFileOfJson? j = sourceFileOfJson? j')
    (before after : Fields) :
    ofJson? (.object (before ++ (key, j) :: after)) =
      ofJson? (.object (before ++ (key, j') :: after)) := by
  refine ofJson?_congr (Fields.required?_replace hinstructions _ _)
    (Fields.required?_replace hlabels _ _) (Fields.required?_replace hdirectives _ _) ?_
  rcases Fields.lookup_replace before after key "metadata" j j' with hsame | ⟨heq, hj, hj'⟩
  · rw [hsame]
  · rw [hj, hj']
    exact hmetadata heq

/-- What an instruction is read from. -/
theorem Instruction.ofJson?_congr {fields fields' : Fields}
    (hmnemonic : fields.required? "mnemonic" Mnemonic.ofJson? =
      fields'.required? "mnemonic" Mnemonic.ofJson?)
    (hoperands : fields.required? "operands" (array? Operand.ofJson?) =
      fields'.required? "operands" (array? Operand.ofJson?))
    (hline : fields.required? "line" natural? = fields'.required? "line" natural?) :
    ofJson? (.object fields) = ofJson? (.object fields') := by
  simp only [ofJson?, record?, Option.bind_eq_bind, Option.bind_some, hmnemonic, hoperands, hline]

/-- An operand is an object with one key. -/
theorem Operand.ofJson?_of_length {fields : Fields} (h : fields.length ≠ 1) :
    ofJson? (.object fields) = none := by
  match fields, h with
  | [], _ => rfl
  | [_], h => exact absurd rfl h
  | _ :: _ :: _, _ => rfl

theorem Operand.ofJson?_perm {fields fields' : Fields} (h : fields.Perm fields') :
    ofJson? (.object fields) = ofJson? (.object fields') := by
  by_cases hlength : fields.length = 1
  · obtain ⟨field, rfl⟩ := List.length_eq_one_iff.1 hlength
    rw [List.perm_singleton.1 h.symm]
  · rw [ofJson?_of_length hlength, ofJson?_of_length (h.length_eq ▸ hlength)]

theorem Labels.ofJson?_perm {fields fields' : Fields} (h : fields.Perm fields')
    (hkeys : (fields.map Prod.fst).Nodup) :
    ofJson? (.object fields) = ofJson? (.object fields') := by
  have hkeys' : (fields'.map Prod.fst).Nodup := (h.map Prod.fst).nodup_iff.1 hkeys
  refine Option.ext fun t => ?_
  rw [ofJson?_spec hkeys, ofJson?_spec hkeys']
  simp only [h.mem_iff, Fields.lookup_perm h hkeys]

namespace Json

/-- A record is read from what is seen under its keys. -/
theorem Form.read_congr {form : Form} {keys : List String} (hkeys : form.keys? = some keys)
    {fields fields' : Fields} (h : ∀ key ∈ keys, form.seen fields key = form.seen fields' key) :
    form.read (.object fields) = form.read (.object fields') := by
  have hlist : ∀ {P : String → Prop} {key : String} {rest : List String},
      (∀ k ∈ key :: rest, P k) ↔ P key ∧ ∀ k ∈ rest, P k := List.forall_mem_cons
  cases form with
  | labels => cases hkeys
  | operand => cases hkeys
  | program =>
    cases hkeys
    obtain ⟨hinstructions, hlabels, hdirectives, hmetadata, -⟩ := by
      simpa only [hlist] using h
    exact Program.ofJson?_congr (Fields.required?_congr hinstructions _)
      (Fields.required?_congr hlabels _) (Fields.required?_congr hdirectives _)
      (congrArg (fun value => (value.map Program.sourceFileOfJson?).getD (some none)) hmetadata)
  | metadata =>
    cases hkeys
    exact Fields.optional?_congr (Option.some.inj (h "source_file" (List.mem_singleton_self _))) _
  | directive =>
    cases hkeys
    obtain ⟨hname, hargs, hline, -⟩ := by simpa only [hlist] using h
    simp only [read, Directive.ofJson?, record?, Option.bind_eq_bind, Option.bind_some]
    rw [Fields.required?_congr hname, Fields.required?_congr hargs, Fields.required?_congr hline]
  | instruction =>
    cases hkeys
    obtain ⟨hmnemonic, hoperands, hline, -⟩ := by simpa only [hlist] using h
    exact Instruction.ofJson?_congr (Fields.required?_congr hmnemonic _)
      (Fields.required?_congr hoperands _) (Fields.required?_congr hline _)
  | view =>
    cases hkeys
    obtain ⟨hregister, hwidth, -⟩ := by simpa only [hlist] using h
    simp only [read, View.ofJson?, record?, Option.bind_eq_bind, Option.bind_some]
    rw [Fields.required?_congr hregister, Fields.required?_congr hwidth]
  | reference =>
    cases hkeys
    obtain ⟨hwidth, hbase, hdisplacement, -⟩ := by simpa only [hlist] using h
    simp only [read, Reference.ofJson?, record?, Option.bind_eq_bind, Option.bind_some]
    rw [Fields.optional?_congr (Option.some.inj hwidth),
      Fields.optional?_congr (Option.some.inj hbase), Fields.required?_congr hdisplacement]
  | target =>
    cases hkeys
    obtain ⟨hname, htarget, -⟩ := by simpa only [hlist] using h
    simp only [read, Operand.ofJson?, object?, Option.bind_eq_bind, Option.bind_some]
    rw [Fields.required?_congr hname, Fields.required?_congr htarget]

namespace Edit

/-! ## What an edit changes -/

theorem read_reorder {form : Form} {fields fields' : Fields} (hperm : fields.Perm fields')
    (hkeys : (fields.map Prod.fst).Nodup) :
    form.read (.object fields) = form.read (.object fields') := by
  cases hform : form.keys? with
  | some keys =>
    refine Form.read_congr hform fun key _ => ?_
    rw [Form.seen, Form.seen, Fields.lookup_perm hperm hkeys]
  | none =>
    cases form with
    | labels => exact Labels.ofJson?_perm hperm hkeys
    | operand => exact Operand.ofJson?_perm hperm
    | _ => cases hform

theorem read_extend {form : Form} {keys : List String} (hkeys : form.keys? = some keys)
    {key : String} (hkey : key ∉ keys) (before after : Fields) (value : Json) :
    form.read (.object (before ++ after)) =
      form.read (.object (before ++ (key, value) :: after)) := by
  refine Form.read_congr hkeys fun name hname => ?_
  have hne : name ≠ key := fun heq => hkey (heq ▸ hname)
  rw [Form.seen, Form.seen, Fields.lookup_extend _ _ _ hne]

theorem read_dropNull {form : Form} {key : String} (hkey : key ∈ form.nullable) {fields : Fields}
    (hnull : fields.lookup key = some .null) :
    form.read (.object fields) = form.read (.object (fields.without key)) := by
  obtain ⟨keys, hkeys⟩ : ∃ keys, form.keys? = some keys := by
    cases form with
    | labels => cases hkey
    | operand => cases hkey
    | _ => exact ⟨_, rfl⟩
  refine Form.read_congr hkeys fun name _ => ?_
  by_cases hname : name = key
  · rw [hname, Form.seen, Form.seen, if_pos hkey, if_pos hkey, hnull,
      Fields.lookup_without_self]
    rfl
  · rw [Form.seen, Form.seen, Fields.lookup_without_of_ne _ hname]

theorem read_dropMetadata {fields metadata : Fields}
    (hmetadata : fields.lookup "metadata" = some (.object metadata))
    (hnull : (metadata.lookup "source_file").getD .null = .null) :
    Program.ofJson? (.object fields) = Program.ofJson? (.object (fields.without "metadata")) := by
  have hrest : ∀ {name : String}, name ≠ "metadata" →
      fields.lookup name = (fields.without "metadata").lookup name :=
    fun hname => (Fields.lookup_without_of_ne _ hname).symm
  have hmissing : (metadata.lookup "source_file").getD .null =
      (([] : Fields).lookup "source_file").getD .null := hnull
  have hnone : Program.sourceFileOfJson? (.object metadata) = some none :=
    Fields.optional?_congr hmissing _
  refine Program.ofJson?_congr (Fields.required?_congr (hrest (by decide)) _)
    (Fields.required?_congr (hrest (by decide)) _) (Fields.required?_congr (hrest (by decide)) _) ?_
  rw [hmetadata, Fields.lookup_without_self, Option.map_some, Option.getD_some, hnone]
  rfl

theorem read_inPart {form part : Form} {key : String} (hkey : (key, part) ∈ form.parts)
    {j j' : Json} (h : part.read j = part.read j') (before after : Fields) :
    form.read (.object (before ++ (key, j) :: after)) =
      form.read (.object (before ++ (key, j') :: after)) := by
  cases form with
  | program =>
    simp only [Form.parts, List.mem_cons, Prod.mk.injEq, List.not_mem_nil, or_false] at hkey
    rcases hkey with ⟨rfl, rfl⟩ | ⟨rfl, rfl⟩
    · exact Program.ofJson?_replace (by simp) (fun _ => h) (by simp) (by simp) _ _
    · exact Program.ofJson?_replace (by simp) (by simp) (by simp) (fun _ => h) _ _
  | operand =>
    by_cases halone : before = [] ∧ after = []
    · obtain ⟨rfl, rfl⟩ := halone
      simp only [Form.parts, List.mem_cons, Prod.mk.injEq, List.not_mem_nil, or_false] at hkey
      rcases hkey with ⟨rfl, rfl⟩ | ⟨rfl, rfl⟩ | ⟨rfl, rfl⟩
      · exact congrArg (Option.map Operand.register) h
      · exact congrArg (Option.map Operand.memory) h
      · exact h
    · have hlength : ∀ value : Json, (before ++ (key, value) :: after).length ≠ 1 := by
        intro value hone
        simp only [List.length_append, List.length_cons] at hone
        exact halone ⟨List.length_eq_zero_iff.1 (by omega), List.length_eq_zero_iff.1 (by omega)⟩
      exact (Operand.ofJson?_of_length (hlength j)).trans
        (Operand.ofJson?_of_length (hlength j')).symm
  | _ => cases hkey

theorem read_inList {form item : Form} {key : String} (hkey : (key, item) ∈ form.lists)
    {j j' : Json} (h : item.read j = item.read j') (before after : Fields)
    (front back : List Json) :
    form.read (.object (before ++ (key, .array (front ++ j :: back)) :: after)) =
      form.read (.object (before ++ (key, .array (front ++ j' :: back)) :: after)) := by
  have harray : array? item.read (.array (front ++ j :: back)) =
      array? item.read (.array (front ++ j' :: back)) := array?_replace h front back
  cases form with
  | program =>
    simp only [Form.lists, List.mem_cons, Prod.mk.injEq, List.not_mem_nil, or_false] at hkey
    rcases hkey with ⟨rfl, rfl⟩ | ⟨rfl, rfl⟩
    · exact Program.ofJson?_replace (fun _ => harray) (by simp) (by simp) (by simp) _ _
    · exact Program.ofJson?_replace (by simp) (by simp) (fun _ => harray) (by simp) _ _
  | instruction =>
    simp only [Form.lists, List.mem_cons, Prod.mk.injEq, List.not_mem_nil, or_false] at hkey
    obtain ⟨rfl, rfl⟩ := hkey
    exact Instruction.ofJson?_congr (Fields.required?_replace (by simp) _ _)
      (Fields.required?_replace (fun _ => harray) _ _) (Fields.required?_replace (by simp) _ _)
  | _ => cases hkey

/-- No edit changes what an object is read as. -/
theorem read_eq {form : Form} {j j' : Json} (h : Edit form j j') : form.read j = form.read j' := by
  induction h with
  | reorder hperm hkeys => exact read_reorder hperm hkeys
  | extend hkeys hkey => exact read_extend hkeys hkey _ _ _
  | dropNull hkey hnull => exact read_dropNull hkey hnull
  | dropMetadata hmetadata hnull => exact read_dropMetadata hmetadata hnull
  | inPart hkey _ ih => exact read_inPart hkey ih _ _
  | inList hkey _ ih => exact read_inList hkey ih _ _ _ _

end Edit

end Json

/-! ## Edited programs -/

namespace Program

/-- The JSON form of a program is decoded to that program, and still is after any number of
edits. -/
theorem edited_program_is_decoded {p : Program} (h : p.InRange) {j : Json}
    (hedits : Relation.ReflTransGen (Json.Edit .program) p.toJson j) : ofJson? j = some p := by
  induction hedits with
  | refl => exact ofJson?_toJson h
  | tail _ hedit ih => exact (Json.Edit.read_eq hedit).symm.trans ih

/-- The largest number that JSON text holds as an unsigned 64-bit integer. -/
def last64 : Nat := UInt64.size - 1

/-- The least number that JSON text holds as a signed 64-bit integer. -/
def least64 : Int := Int64.minValue.toInt

/-- A program with the smallest and the largest numbers, with the lowest byte of `rip`, and with an
instruction without operands. -/
def extremes : Program where
  instructions := #[
    { mnemonic := .mov
      operands := [.register ⟨.rip, .byte⟩, .immediate Int64.minValue, .label "" last64,
        .memory ⟨none, none, Int64.minValue⟩]
      line := last64 },
    { mnemonic := .add, operands := [], line := 0 }]
  labels := Labels.ofList [("end", last64), ("", 0)]
  directives := [{ name := "globl", args := ["end", ""], line := last64 }]

/-- The JSON form of the instructions of `extremes`, with a given body of the memory operand. -/
def extremeInstructions (memory : Json) : Json :=
  .array
    [.object
      [("mnemonic", .string "mov"),
        ("operands", .array
          [.object [("Register", .object [("register", .string "rip"), ("width", .string "byte")])],
            .object [("Immediate", .integer least64)],
            .object [("Label", .object [("name", .string ""), ("target", .natural last64)])],
            .object [("Memory", memory)]]),
        ("line", .natural last64)],
      .object [("mnemonic", .string "add"), ("operands", .array []), ("line", .natural 0)]]

/-- The JSON form of `extremes` after edits: without metadata and nulls, with a further field, and
in another order. -/
def extremesEdited : Json :=
  .object
    [("directives", .array (extremes.directives.map Directive.toJson)),
      ("labels", .object [("end", .natural last64), ("", .natural 0)]),
      ("note", .bool true),
      ("instructions", extremeInstructions (.object [("displacement", .integer least64)]))]

theorem extremes_inRange : extremes.InRange where
  instructions i hi := by
    have hlines : ∀ i ∈ extremes.instructions.toList, i.line < UInt64.size := by decide +kernel
    have htargets : ∀ i ∈ extremes.instructions.toList, ∀ o ∈ i.operands, o.InRange := by
      decide +kernel
    exact ⟨hlines i (by simpa using hi), htargets i (by simpa using hi)⟩
  label_lt name index h := by
    have hentries : ∀ e ∈ extremes.labels.entries, e.2 < UInt64.size := by decide +kernel
    exact hentries (name, index) (Labels.get?_eq_some_iff.1 h)
  directive_lt := by decide +kernel

theorem extremes_edits :
    Relation.ReflTransGen (Json.Edit .program) extremes.toJson extremesEdited := by
  -- An edit of the memory operand, at its place in the program.
  have hmemory : ∀ {j j' : Json} (rest : Json.Fields), Json.Edit .reference j j' →
      Json.Edit .program (.object (("instructions", extremeInstructions j) :: rest))
        (.object (("instructions", extremeInstructions j') :: rest)) := by
    intro j j' rest h
    have hoperand : Json.Edit .operand (.object [("Memory", j)]) (.object [("Memory", j')]) :=
      @Json.Edit.inPart .operand .reference [] [] "Memory" j j' (by decide) h
    have hinstruction := @Json.Edit.inList .instruction .operand [("mnemonic", .string "mov")]
      [("line", .natural last64)] "operands"
      [.object [("Register", .object [("register", .string "rip"), ("width", .string "byte")])],
        .object [("Immediate", .integer least64)],
        .object [("Label", .object [("name", .string ""), ("target", .natural last64)])]] []
      _ _ (by decide) hoperand
    exact @Json.Edit.inList .program .instruction [] rest "instructions" [] _ _ _ (by decide)
      hinstruction
  have hwidth : Json.Edit .reference _
      (.object [("base", .null), ("displacement", .integer least64)]) :=
    @Json.Edit.dropNull .reference
      [("width", .null), ("base", .null), ("displacement", .integer least64)] "width"
      (by decide) rfl
  have hbase : Json.Edit .reference _ (.object [("displacement", .integer least64)]) :=
    @Json.Edit.dropNull .reference [("base", .null), ("displacement", .integer least64)] "base"
      (by decide) rfl
  have hmetadata : Json.Edit .program extremes.toJson _ := .dropMetadata rfl rfl
  have hnote := @Json.Edit.extend .program _
    [("instructions", extremeInstructions (.object [("displacement", .integer least64)]))]
    [("labels", extremes.labels.toJson),
      ("directives", .array (extremes.directives.map Directive.toJson))] "note" (.bool true) rfl
    (by decide)
  have hentries : extremes.labels.entries = [("", 0), ("end", last64)] := by decide +kernel
  have hlabels : extremes.labels.toJson =
      .object [("", .natural 0), ("end", .natural last64)] := by
    rw [Labels.toJson, hentries]
    rfl
  refine .head hmetadata (.head (hmemory _ hwidth) (.head (hmemory _ hbase) (.head hnote ?_)))
  rw [hlabels]
  have hswap := @Json.Edit.inPart .program .labels
    [("instructions", extremeInstructions (.object [("displacement", .integer least64)])),
      ("note", .bool true)]
    [("directives", .array (extremes.directives.map Directive.toJson))] "labels" _ _ (by decide)
    (.reorder (.swap ("end", .natural last64) ("", .natural 0) []) (by decide))
  exact .head hswap (.single (.reorder (List.reverse_perm _).symm (by decide)))

theorem extremes_edited_decodes :
    extremes.InRange ∧ Relation.ReflTransGen (Json.Edit .program) extremes.toJson extremesEdited ∧
      ofJson? extremesEdited = some extremes :=
  ⟨extremes_inRange, extremes_edits, edited_program_is_decoded extremes_inRange extremes_edits⟩

end Program

end X64
