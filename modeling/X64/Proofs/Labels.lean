import X64.Labels
import Mathlib.Data.List.Sort

/-!
# Label tables as finite maps

A table is determined by its look-ups (`Labels.ext_get?`), and `get?_insert` says what an insertion
does to them. A table grows while the lines of a source are read. `Labels.Le` compares two tables by
the labels that they define, `Labels.Extends` says which names one line adds, and `Labels.UpTo` cuts
the table of a program at an index. Behind another program all indices move. `Labels.ShiftsTo`
compares two tables up to this, and `Labels.Joins` describes the table that one gets.
-/

namespace X64.Labels

theorem lookup_cons {α : Type} (key name : String) (value : α) (rest : List (String × α)) :
    ((name, value) :: rest).lookup key = if key = name then some value else rest.lookup key := by
  rw [List.lookup_cons]
  by_cases h : key = name
  · simp [h]
  · simp [h, beq_false_of_ne h]

theorem lookup_insertEntry (name key : String) (index : Nat) (entries : List (String × Nat)) :
    (insertEntry name index entries).lookup key =
      if key = name then some index else entries.lookup key := by
  induction entries with
  | nil => exact lookup_cons key name index []
  | cons entry rest ih =>
    obtain ⟨other, i⟩ := entry
    simp only [insertEntry]
    by_cases hlt : name < other
    · rw [if_pos hlt, lookup_cons]
    · rw [if_neg hlt]
      by_cases heq : name = other
      · subst heq
        rw [if_pos rfl, lookup_cons, lookup_cons]
        split <;> rfl
      · rw [if_neg heq, lookup_cons, lookup_cons, ih]
        by_cases hkey : key = other
        · have hne : key ≠ name := fun h => heq (h ▸ hkey)
          rw [if_pos hkey, if_pos hkey, if_neg hne]
        · rw [if_neg hkey, if_neg hkey]

theorem get?_insert (t : Labels) (name key : String) (index : Nat) :
    (t.insert name index).get? key = if key = name then some index else t.get? key :=
  lookup_insertEntry name key index t.entries

@[simp] theorem get?_empty (key : String) : empty.get? key = none := rfl

/-! ## Entries and look-ups -/

theorem lookup_eq_some_iff_mem {entries : List (String × Nat)}
    (hsorted : entries.Pairwise fun a b => a.1 < b.1) {name : String} {index : Nat} :
    entries.lookup name = some index ↔ (name, index) ∈ entries := by
  induction entries with
  | nil => simp
  | cons entry rest ih =>
    obtain ⟨hentry, hrest⟩ := List.pairwise_cons.1 hsorted
    obtain ⟨other, i⟩ := entry
    rw [lookup_cons, List.mem_cons, Prod.mk.injEq]
    by_cases hname : name = other
    · subst hname
      have hnot : (name, index) ∉ rest := by
        intro hmem
        have hlt : name < name := hentry _ hmem
        exact String.lt_irrefl _ hlt
      simp [hnot, eq_comm]
    · simp [hname, ih hrest]

theorem get?_eq_some_iff {t : Labels} {name : String} {index : Nat} :
    t.get? name = some index ↔ (name, index) ∈ t.entries :=
  lookup_eq_some_iff_mem t.sorted

theorem mem_names {t : Labels} {name : String} : name ∈ t.names ↔ (t.get? name).isSome = true := by
  rw [names, List.mem_map, Option.isSome_iff_exists]
  constructor
  · rintro ⟨⟨other, index⟩, he, rfl⟩
    exact ⟨index, get?_eq_some_iff.2 he⟩
  · rintro ⟨index, hindex⟩
    exact ⟨(name, index), get?_eq_some_iff.1 hindex, rfl⟩

theorem sorted_names (t : Labels) : t.names.Pairwise (· < ·) := List.pairwise_map.2 t.sorted

theorem nodup_names (t : Labels) : t.names.Nodup := by
  refine List.Pairwise.imp (fun {a b} hlt => ?_) t.sorted_names
  intro heq
  exact String.lt_irrefl _ (heq ▸ hlt)

/-- Two tables with the same look-ups are equal. -/
theorem ext_get? {s t : Labels} (h : ∀ name, s.get? name = t.get? name) : s = t := by
  have hmem : ∀ e, e ∈ s.entries ↔ e ∈ t.entries := by
    rintro ⟨name, index⟩
    rw [← get?_eq_some_iff, ← get?_eq_some_iff, h]
  have _ : Std.Irrefl fun a b : String × Nat => a.1 < b.1 := ⟨fun a => String.lt_irrefl a.1⟩
  have _ : Std.Antisymm fun a b : String × Nat => a.1 < b.1 :=
    ⟨fun a b hab hba => absurd (String.lt_trans hab hba) (String.lt_irrefl a.1)⟩
  obtain ⟨entries, hs⟩ := s
  obtain ⟨entries', ht⟩ := t
  obtain rfl : entries = entries' := hs.eq_of_mem_iff ht hmem
  rfl

/-! ## Growing tables -/

/-- Every label of the first table stands for the same index in the second. -/
def Le (s t : Labels) : Prop :=
  ∀ name index, s.get? name = some index → t.get? name = some index

/-- Every label of the first table is in the second one, at an index that is larger by `offset`. -/
def ShiftsTo (s t : Labels) (offset : Nat) : Prop :=
  ∀ name index, s.get? name = some index → t.get? name = some (index + offset)

theorem Le.shiftsTo {s t : Labels} (h : s.Le t) : s.ShiftsTo t 0 := h

theorem le_insert {t : Labels} {name : String} (h : t.get? name = none) (index : Nat) :
    t.Le (t.insert name index) := by
  intro key i hkey
  have hne : key ≠ name := by
    intro heq
    subst heq
    rw [h] at hkey
    exact absurd hkey (by simp)
  rw [get?_insert, if_neg hne]
  exact hkey

/-- The second table is the first one with new names, which all stand for the index. -/
structure Extends (s : Labels) (names : List String) (index : Nat) (t : Labels) : Prop where
  nodup : names.Nodup
  fresh : ∀ name ∈ names, s.get? name = none
  get?_eq : ∀ name, t.get? name = if name ∈ names then some index else s.get? name

variable {s t : Labels} {name : String} {names : List String} {index : Nat}

theorem extends_nil : s.Extends [] index t ↔ s = t := by
  constructor
  · intro h
    apply ext_get?
    intro key
    rw [h.get?_eq key, if_neg List.not_mem_nil]
  · intro heq
    subst heq
    exact ⟨List.nodup_nil, by simp, by simp⟩

theorem extends_cons :
    s.Extends (name :: names) index t ↔
      s.get? name = none ∧ (s.insert name index).Extends names index t := by
  constructor
  · intro h
    obtain ⟨hnot, hnodup⟩ := List.nodup_cons.1 h.nodup
    refine ⟨h.fresh name List.mem_cons_self, hnodup, ?_, ?_⟩
    · intro key hkey
      have hne : key ≠ name := ne_of_mem_of_not_mem hkey hnot
      rw [get?_insert, if_neg hne]
      exact h.fresh key (List.mem_cons_of_mem name hkey)
    · intro key
      rw [h.get?_eq key, get?_insert]
      by_cases hkey : key = name <;> simp [hkey]
  · intro ⟨hname, h⟩
    have hnot : name ∉ names := by
      intro hmem
      have hnone := h.fresh name hmem
      rw [get?_insert, if_pos rfl] at hnone
      cases hnone
    refine ⟨List.nodup_cons.2 ⟨hnot, h.nodup⟩, ?_, ?_⟩
    · intro key hkey
      rcases List.mem_cons.1 hkey with rfl | hkey
      · exact hname
      · have hnone := h.fresh key hkey
        rwa [get?_insert, if_neg (ne_of_mem_of_not_mem hkey hnot)] at hnone
    · intro key
      rw [h.get?_eq key, get?_insert]
      by_cases hkey : key = name <;> simp [hkey]

theorem exists_extends (hnodup : names.Nodup) (hfresh : ∀ name ∈ names, s.get? name = none)
    (index : Nat) : ∃ t, s.Extends names index t := by
  induction names generalizing s with
  | nil => exact ⟨s, extends_nil.2 rfl⟩
  | cons name names ih =>
    obtain ⟨hnot, hnodup⟩ := List.nodup_cons.1 hnodup
    have hfresh' : ∀ key ∈ names, (s.insert name index).get? key = none := by
      intro key hkey
      rw [get?_insert, if_neg (ne_of_mem_of_not_mem hkey hnot)]
      exact hfresh key (List.mem_cons_of_mem name hkey)
    obtain ⟨t, ht⟩ := ih hnodup hfresh'
    exact ⟨t, extends_cons.2 ⟨hfresh name List.mem_cons_self, ht⟩⟩

/-- The table has the labels of `base`, and those of `t` at indices that are larger by `offset`. -/
def Joins (u base t : Labels) (offset : Nat) : Prop :=
  ∀ name, u.get? name = (base.get? name).or ((t.get? name).map (· + offset))

namespace Joins

variable {u u' base : Labels} {offset : Nat}

theorem refl (base : Labels) (offset : Nat) : base.Joins base empty offset := by
  intro name
  rw [get?_empty, Option.map_none, Option.or_none]

theorem le (h : u.Joins base t offset) : base.Le u := by
  intro name i hi
  rw [h name, hi]
  rfl

/-- If the two tables have no name in common, the second one is found behind the first. -/
theorem shiftsTo (h : u.Joins base t offset)
    (hdisjoint : ∀ name, base.get? name = none ∨ t.get? name = none) : t.ShiftsTo u offset := by
  intro name i hi
  have hbase : base.get? name = none := (hdisjoint name).resolve_right (by simp [hi])
  rw [h name, hbase, hi]
  rfl

/-- A name that is free in the joined table is free in the first one. -/
theorem get?_base_eq_none (h : u.Joins base t offset) (hname : u.get? name = none) :
    base.get? name = none := by
  rw [h name, Option.or_eq_none_iff] at hname
  exact hname.1

/-- New names may be put in before or after the tables are joined. -/
theorem extend (h : u.Joins base s offset) (hst : s.Extends names index t)
    (hu : u.Extends names (index + offset) u') : u'.Joins base t offset := by
  intro key
  rw [hu.get?_eq key, hst.get?_eq key]
  by_cases hkey : key ∈ names
  · rw [if_pos hkey, if_pos hkey, h.get?_base_eq_none (hu.fresh key hkey)]
    rfl
  · rw [if_neg hkey, if_neg hkey]
    exact h key

end Joins

/-- The first table has the labels of the second one that stand for smaller indices. -/
def UpTo (t all : Labels) (bound : Nat) : Prop :=
  ∀ name i, t.get? name = some i ↔ all.get? name = some i ∧ i < bound

namespace UpTo

variable {all : Labels}

theorem zero (all : Labels) : empty.UpTo all 0 := by
  intro name i
  simp

theorem fresh (h : s.UpTo all index) (hname : all.get? name = some index) : s.get? name = none := by
  refine Option.eq_none_iff_forall_ne_some.2 fun i hi => ?_
  obtain ⟨hname', hlt⟩ := (h name i).1 hi
  obtain rfl : index = i := Option.some.inj (hname.symm.trans hname')
  exact Nat.lt_irrefl index hlt

theorem succ (h : s.UpTo all index) (hst : s.Extends names index t)
    (hnames : ∀ name, name ∈ names ↔ all.get? name = some index) : t.UpTo all (index + 1) := by
  intro name i
  rw [hst.get?_eq name]
  by_cases hname : name ∈ names
  · rw [if_pos hname, (hnames name).1 hname]
    constructor
    · intro heq
      cases heq
      exact ⟨rfl, Nat.lt_succ_self index⟩
    · intro hi
      exact hi.1
  · rw [if_neg hname, h name i]
    constructor
    · intro hi
      exact ⟨hi.1, Nat.lt_succ_of_lt hi.2⟩
    · intro hi
      have hne : i ≠ index := fun heq => hname ((hnames name).2 (heq ▸ hi.1))
      exact ⟨hi.1, by omega⟩

theorem eq {bound : Nat} (h : t.UpTo all bound)
    (hbound : ∀ name i, all.get? name = some i → i < bound) : t = all := by
  refine ext_get? fun name => Option.ext fun i => ?_
  rw [h name i]
  constructor
  · intro hi
    exact hi.1
  · intro hi
    exact ⟨hi, hbound name i hi⟩

end UpTo

end X64.Labels
