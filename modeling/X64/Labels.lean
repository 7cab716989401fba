/-!
# Label tables

A label table maps names to instruction indices. It is kept as a list that is strictly sorted by
name, so two tables with the same look-ups are equal.
-/

namespace X64

/-- A finite map from label names to instruction indices. -/
structure Labels where
  entries : List (String × Nat)
  sorted : entries.Pairwise fun a b => a.1 < b.1
  deriving DecidableEq, Repr

namespace Labels

/-- The table without any name. -/
def empty : Labels where
  entries := []
  sorted := List.Pairwise.nil

instance : Inhabited Labels := ⟨empty⟩

/-- Puts an entry into a sorted list, in place of an entry with the same name. -/
def insertEntry (name : String) (index : Nat) : List (String × Nat) → List (String × Nat)
  | [] => [(name, index)]
  | entry :: rest =>
    if name < entry.1 then (name, index) :: entry :: rest
    else if name = entry.1 then (name, index) :: rest
    else entry :: insertEntry name index rest

/-- A new list holds the new entry and, of the old ones, only such as were there. -/
theorem mem_insertEntry {name : String} {index : Nat} {e : String × Nat}
    {entries : List (String × Nat)} (h : e ∈ insertEntry name index entries) :
    e = (name, index) ∨ e ∈ entries := by
  induction entries with
  | nil => simpa [insertEntry] using h
  | cons entry rest ih =>
    simp only [insertEntry] at h
    split at h
    · simpa using h
    · split at h
      · rcases List.mem_cons.1 h with h | h
        · exact .inl h
        · exact .inr (List.mem_cons_of_mem _ h)
      · rcases List.mem_cons.1 h with h | h
        · exact .inr (h ▸ List.mem_cons_self)
        · exact (ih h).imp_right (List.mem_cons_of_mem _)

/-- Insertion keeps the order. -/
theorem sorted_insertEntry (name : String) (index : Nat) {entries : List (String × Nat)}
    (h : entries.Pairwise fun a b => a.1 < b.1) :
    (insertEntry name index entries).Pairwise fun a b => a.1 < b.1 := by
  induction entries with
  | nil => simp [insertEntry]
  | cons entry rest ih =>
    obtain ⟨hentry, hrest⟩ := List.pairwise_cons.1 h
    simp only [insertEntry]
    split
    · next hlt =>
      refine List.pairwise_cons.2 ⟨fun e he => ?_, h⟩
      rcases List.mem_cons.1 he with rfl | he
      · exact hlt
      · exact String.lt_trans hlt (hentry e he)
    · next hlt =>
      split
      · next heq =>
        exact List.pairwise_cons.2 ⟨fun e he => heq ▸ hentry e he, hrest⟩
      · next hne =>
        refine List.pairwise_cons.2 ⟨fun e he => ?_, ih hrest⟩
        rcases mem_insertEntry he with rfl | he
        · exact Std.lt_of_le_of_ne (String.not_lt.1 hlt) (Ne.symm hne)
        · exact hentry e he

/-- The table in which `name` stands for `index` and all other names stand for what they did. -/
def insert (t : Labels) (name : String) (index : Nat) : Labels where
  entries := insertEntry name index t.entries
  sorted := sorted_insertEntry name index t.sorted

/-- The index that a name stands for. -/
def get? (t : Labels) (name : String) : Option Nat := t.entries.lookup name

/-- The names of a table, in ascending order. -/
def names (t : Labels) : List String := t.entries.map Prod.fst

/-- The table of a list of entries. Of two entries with one name the later counts. -/
def ofList (entries : List (String × Nat)) : Labels :=
  entries.foldl (fun t entry => t.insert entry.1 entry.2) empty

end Labels

end X64
