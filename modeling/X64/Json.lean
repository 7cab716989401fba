/-!
# JSON values

The tree form of JSON text. A number keeps how many places it was written with, because a number
with places is no integer even if its value is.

A record is read from an object or from an array of its values, a symbol from a text or from an
object with one key. What is written is always an object or a text.
-/

namespace X64

/-- A JSON value. -/
inductive Json where
  | null
  | bool (value : Bool)
  /-- The number `digits / 10 ^ places`, written with that many places after the point. -/
  | number (digits : Int) (places : Nat)
  | string (value : String)
  | array (items : List Json)
  | object (fields : List (String × Json))
  deriving Repr, Inhabited

namespace Json

/-- An integer. -/
def integer (i : Int) : Json := .number i 0

/-- A natural number. -/
def natural (n : Nat) : Json := .integer n

/-- A value, or null in place of none. -/
def optional {α : Type} (encode : α → Json) : Option α → Json
  | some a => encode a
  | none => .null

/-- The integer that a value is. -/
def integer? : Json → Option Int
  | .number i 0 => some i
  | _ => none

/-- The natural number below `2 ^ 64` that a value is. -/
def natural? (j : Json) : Option Nat :=
  j.integer?.bind fun i => if 0 ≤ i ∧ i.toNat < UInt64.size then some i.toNat else none

/-- The signed 64-bit integer that a value is. -/
def int64? (j : Json) : Option Int64 :=
  j.integer?.bind fun i =>
    if Int64.minValue.toInt ≤ i ∧ i ≤ Int64.maxValue.toInt then some (Int64.ofInt i) else none

/-- The text that a value is. -/
def string? : Json → Option String
  | .string s => some s
  | _ => none

/-- The items of an array, decoded. -/
def array? {α : Type} (decode : Json → Option α) : Json → Option (List α)
  | .array items => items.mapM decode
  | _ => none

/-- The symbol that a value is: a text, or the only key of an object whose value is null. -/
def symbol? : Json → Option String
  | .string s => some s
  | .object [(s, .null)] => some s
  | _ => none

/-- The named values of a record. -/
abbrev Fields := List (String × Json)

/-- The fields of an object. -/
def object? : Json → Option Fields
  | .object fields => some fields
  | _ => none

/-- The fields of a record: those of an object, which may have others too, or the items of an array
with exactly one item for each of the given names. -/
def record? (j : Json) (names : List String) : Option Fields :=
  match j with
  | .object fields => some fields
  | .array items => if items.length = names.length then some (names.zip items) else none
  | _ => none

/-- A field that has to be there, decoded. -/
def Fields.required? {α : Type} (fields : Fields) (name : String) (decode : Json → Option α) :
    Option α :=
  (fields.lookup name).bind decode

/-- A field that may be null or missing, decoded. -/
def Fields.optional? {α : Type} (fields : Fields) (name : String) (decode : Json → Option α) :
    Option (Option α) :=
  match fields.lookup name with
  | none | some .null => some none
  | some value => (decode value).map some

@[simp] theorem integer?_integer (i : Int) : (integer i).integer? = some i := rfl

theorem natural?_natural {n : Nat} (h : n < UInt64.size) : (natural n).natural? = some n := by
  have hn : (0 : Int) ≤ n ∧ (n : Int).toNat < UInt64.size := ⟨Int.natCast_nonneg n, h⟩
  rw [natural?, natural, integer?_integer, Option.bind_some, if_pos hn, Int.toNat_natCast]

theorem int64?_toInt (v : Int64) : (integer v.toInt).int64? = some v := by
  have hv : Int64.minValue.toInt ≤ v.toInt ∧ v.toInt ≤ Int64.maxValue.toInt :=
    ⟨v.minValue_le_toInt, v.toInt_le⟩
  rw [int64?, integer?_integer, Option.bind_some, if_pos hv, Int64.ofInt_toInt]

end Json

end X64
