import Mathlib.Data.List.Infix
import Mathlib.Data.List.MinMax
import Mathlib.Order.Nat

/-!
# Well-bracketed sequences of stack calls

A sequence of pushes and pops is well-bracketed if every pop finds a value that one of these pushes
has left, and no value is left at the end. `WellBracketed` says it by counting. The value that a pop
finds is that of the last push that is still open (`LastOpen`), and there is one before every pop
(`WellBracketed.exists_lastOpen`).

A program over such a sequence is best followed along its brackets. `Balanced` builds sequences
from the last bracket: what comes before it, the push, what is nested in it, and the pop. All
well-bracketed sequences arise in this way (`WellBracketed.balanced`).
-/

namespace X64

/-- A use of the stack. -/
inductive StackCall where
  | push (value : UInt64)
  | pop
  deriving DecidableEq, Repr

namespace StackCall

/-! ## Counting -/

/-- What a call adds to the number of values on the stack. -/
def delta : StackCall → Int
  | .push _ => 1
  | .pop => -1

/-- The number of pushes less the number of pops. -/
def height : List StackCall → Int
  | [] => 0
  | call :: calls => call.delta + height calls

/-- No prefix has more pops than pushes, and there are as many pops as pushes overall. -/
structure WellBracketed (calls : List StackCall) : Prop where
  height_nonneg : ∀ p, p <+: calls → 0 ≤ height p
  height_eq : height calls = 0

instance (calls : List StackCall) : Decidable (WellBracketed calls) :=
  decidable_of_iff ((∀ p ∈ calls.inits, 0 ≤ height p) ∧ height calls = 0)
    ⟨fun ⟨hnonneg, heq⟩ => ⟨fun p hp => hnonneg p ((List.mem_inits p calls).2 hp), heq⟩,
      fun h => ⟨fun p hp => h.height_nonneg p ((List.mem_inits p calls).1 hp), h.height_eq⟩⟩

/-- The greatest number of values that the calls have on the stack. -/
def depth (calls : List StackCall) : Nat :=
  (calls.inits.map fun p => (height p).toNat).foldr max 0

/-- The last push without a pop among the calls is a push of `v`. -/
def LastOpen (calls : List StackCall) (v : UInt64) : Prop :=
  ∃ earlier inner, calls = earlier ++ .push v :: inner ∧ WellBracketed inner

variable {calls earlier inner p : List StackCall} {v : UInt64}

@[simp] theorem height_nil : height [] = 0 := rfl

@[simp] theorem height_push_cons : height (.push v :: calls) = 1 + height calls := rfl

@[simp] theorem height_pop_cons : height (.pop :: calls) = -1 + height calls := rfl

@[simp] theorem height_append : height (earlier ++ inner) = height earlier + height inner := by
  induction earlier with
  | nil => exact (Int.zero_add _).symm
  | cons call earlier ih => rw [List.cons_append, height, height, ih, Int.add_assoc]

/-- Whether no prefix has more pops than pushes can be asked of the first calls alone. -/
theorem height_nonneg_of_append (h : ∀ p, p <+: earlier ++ inner → 0 ≤ height p) :
    ∀ p, p <+: earlier → 0 ≤ height p :=
  fun p hp => h p (hp.trans (List.prefix_append earlier inner))

theorem wellBracketed_nil : WellBracketed [] where
  height_nonneg := by
    intro p hp
    rw [List.prefix_nil.1 hp, height_nil]
  height_eq := rfl

/-! ## Brackets -/

/-- A sequence that ends with a bracket: the calls before it, a push, the calls nested in it, and
the pop. -/
def nest (earlier : List StackCall) (v : UInt64) (inner : List StackCall) : List StackCall :=
  earlier ++ .push v :: (inner ++ [.pop])

@[simp] theorem height_nest : height (nest earlier v inner) = height earlier + height inner := by
  simp only [nest, height_append, height_push_cons, height_pop_cons, height_nil]
  omega

/-- A prefix ends before the bracket, inside it, or with it. -/
theorem prefix_nest_cases (h : p <+: nest earlier v inner) :
    p <+: earlier ∨ (∃ q, q <+: inner ∧ p = earlier ++ .push v :: q) ∨
      p = nest earlier v inner := by
  obtain ⟨rest, hrest⟩ := h
  rcases List.append_eq_append_iff.1 hrest with ⟨q, rfl, -⟩ | ⟨q, rfl, hq⟩
  · exact Or.inl (List.prefix_append p q)
  · rcases List.prefix_cons_iff.1 ⟨rest, hq.symm⟩ with rfl | ⟨t, rfl, ht⟩
    · exact Or.inl (by rw [List.append_nil])
    · rcases List.prefix_concat_iff.1 ht with rfl | ht
      · exact Or.inr (Or.inr rfl)
      · exact Or.inr (Or.inl ⟨t, ht, rfl⟩)

theorem WellBracketed.nest (he : WellBracketed earlier) (hi : WellBracketed inner) (v : UInt64) :
    WellBracketed (nest earlier v inner) where
  height_nonneg := by
    intro p hp
    rcases prefix_nest_cases hp with hp | ⟨q, hq, rfl⟩ | rfl
    · exact he.height_nonneg p hp
    · have hinside := hi.height_nonneg q hq
      rw [height_append, height_push_cons, he.height_eq]
      omega
    · rw [height_nest, he.height_eq, hi.height_eq]
      decide
  height_eq := by
    rw [height_nest, he.height_eq, hi.height_eq]
    rfl

/-- Where no prefix has more pops than pushes and a value is left, a push is still open. -/
theorem exists_lastOpen {calls : List StackCall} (hnonneg : ∀ p, p <+: calls → 0 ≤ height p)
    (hpos : 0 < height calls) : ∃ v, LastOpen calls v := by
  rcases calls.eq_nil_or_concat' with rfl | ⟨before, last, rfl⟩
  · exact absurd hpos (by decide)
  have hbefore := height_nonneg_of_append hnonneg
  cases last with
  | push v => exact ⟨v, before, [], rfl, wellBracketed_nil⟩
  | pop =>
    rw [height_append, height_pop_cons, height_nil] at hpos
    obtain ⟨v, earlier, inner, rfl, hinner⟩ := exists_lastOpen hbefore (by omega)
    rw [height_append, height_push_cons, hinner.height_eq] at hpos
    -- The last call closes this push. The push that stays open is the one before it.
    obtain ⟨u, earlier', inner', rfl, hinner'⟩ :=
      exists_lastOpen (height_nonneg_of_append hbefore) (by omega)
    exact ⟨u, earlier', StackCall.nest inner' v inner, by simp [StackCall.nest],
      hinner'.nest hinner v⟩
termination_by calls.length
decreasing_by
  all_goals
    subst_vars
    simp only [List.length_append, List.length_cons, List.length_nil]
    omega

/-- Before every pop there is a push that it closes. -/
theorem WellBracketed.exists_lastOpen {later : List StackCall}
    (h : WellBracketed (earlier ++ .pop :: later)) : ∃ v, LastOpen earlier v := by
  have hpop := h.height_nonneg (earlier ++ [.pop]) ⟨later, by simp⟩
  rw [height_append, height_pop_cons, height_nil] at hpop
  exact StackCall.exists_lastOpen (height_nonneg_of_append h.height_nonneg) (by omega)

/-- The sequences that are made of brackets. -/
inductive Balanced : List StackCall → Prop
  | nil : Balanced []
  | nest {earlier inner : List StackCall} (v : UInt64) (he : Balanced earlier)
      (hi : Balanced inner) : Balanced (nest earlier v inner)

theorem Balanced.wellBracketed (h : Balanced calls) : WellBracketed calls := by
  induction h with
  | nil => exact wellBracketed_nil
  | nest v _ _ ihe ihi => exact ihe.nest ihi v

theorem WellBracketed.balanced {calls : List StackCall} (h : WellBracketed calls) :
    Balanced calls := by
  rcases calls.eq_nil_or_concat' with rfl | ⟨before, last, rfl⟩
  · exact .nil
  have hbefore := height_nonneg_of_append h.height_nonneg
  have htotal := h.height_eq
  cases last with
  | push v =>
    rw [height_append, height_push_cons, height_nil] at htotal
    have hnonneg := hbefore before (List.prefix_refl _)
    omega
  | pop =>
    rw [height_append, height_pop_cons, height_nil] at htotal
    obtain ⟨v, earlier, inner, rfl, hinner⟩ := StackCall.exists_lastOpen hbefore (by omega)
    rw [height_append, height_push_cons, hinner.height_eq] at htotal
    have hearlier : WellBracketed earlier := ⟨height_nonneg_of_append hbefore, by omega⟩
    rw [List.append_assoc]
    exact .nest v hearlier.balanced hinner.balanced
termination_by calls.length
decreasing_by
  all_goals
    subst_vars
    simp only [List.length_append, List.length_cons, List.length_nil]
    omega

/-! ## Depth -/

theorem le_depth (h : p <+: calls) : (height p).toNat ≤ depth calls :=
  List.le_max_of_le (List.mem_map.2 ⟨p, (List.mem_inits p calls).2 h, rfl⟩) (Nat.le_refl _)

theorem depth_le {n : Nat} (h : ∀ p, p <+: calls → (height p).toNat ≤ n) : depth calls ≤ n := by
  refine List.max_le_of_forall_le _ n fun k hk => ?_
  obtain ⟨p, hp, rfl⟩ := List.mem_map.1 hk
  exact h p ((List.mem_inits p calls).1 hp)

/-- The calls nested in a bracket have one more value below them. -/
theorem depth_nest (he : WellBracketed earlier) (hi : WellBracketed inner) (v : UInt64) :
    depth (nest earlier v inner) = max (depth earlier) (depth inner + 1) := by
  have hheight : ∀ q, height (earlier ++ .push v :: q) = height q + 1 := by
    intro q
    rw [height_append, height_push_cons, he.height_eq]
    omega
  apply Nat.le_antisymm
  · refine depth_le fun p hp => ?_
    rcases prefix_nest_cases hp with hp | ⟨q, hq, rfl⟩ | rfl
    · exact Nat.le_trans (le_depth hp) (Nat.le_max_left _ _)
    · have hle := le_depth hq
      rw [hheight]
      omega
    · rw [(he.nest hi v).height_eq]
      exact Nat.zero_le _
  · refine Nat.max_le.2 ⟨depth_le fun p hp => le_depth (hp.trans (List.prefix_append _ _)), ?_⟩
    have hinside : ∀ q, q <+: inner → (height q).toNat + 1 ≤ depth (nest earlier v inner) := by
      intro q hq
      obtain ⟨rest, rfl⟩ := hq
      have hle : (height (earlier ++ .push v :: q)).toNat ≤ depth (nest earlier v (q ++ rest)) :=
        le_depth ⟨rest ++ [.pop], by simp [nest]⟩
      have hnonneg := hi.height_nonneg q (List.prefix_append _ _)
      rw [hheight] at hle
      omega
    have hone := hinside [] List.nil_prefix
    have hle := depth_le (n := depth (nest earlier v inner) - 1) fun q hq =>
      Nat.le_sub_of_add_le (hinside q hq)
    omega

end StackCall

end X64
