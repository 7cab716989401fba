import Mathlib.Data.List.Forall2

/-!
# Computations that may fail

Readers and instructions are sequences of computations in `Except`. The lemmas here take such a
sequence apart: what each of its parts gave when it succeeded, and which part is to blame when it
failed.
-/

namespace X64

variable {ε ε' α β : Type} {x : Except ε α}

theorem ok_bind (a : α) (f : α → Except ε β) : (Except.ok a >>= f) = f a := rfl

theorem bind_eq_ok_iff {f : α → Except ε β} {b : β} :
    (x >>= f) = .ok b ↔ ∃ a, x = .ok a ∧ f a = .ok b := by
  cases x with
  | error e => simp [bind, Except.bind]
  | ok a => simp [bind, Except.bind]

/-- The first computation failed, or it succeeded and the second one failed. -/
theorem bind_eq_error_iff {f : α → Except ε β} {e : ε} :
    (x >>= f) = .error e ↔ x = .error e ∨ ∃ a, x = .ok a ∧ f a = .error e := by
  cases x with
  | error e' => simp [bind, Except.bind]
  | ok a => simp [bind, Except.bind]

/-- What follows a computation without failing does not change its errors. -/
theorem bind_pure_eq_error_iff {f : α → β} {e : ε} :
    (x >>= fun a => pure (f a)) = .error e ↔ x = .error e := by
  cases x <;> simp [bind, Except.bind, pure, Except.pure]

theorem exists_ok_iff : (∃ a, x = .ok a) ↔ ∀ e, x ≠ .error e := by
  cases x <;> simp

/-- Every error of the computation satisfies `P`. -/
def FailsOnlyWith (P : ε → Prop) (x : Except ε α) : Prop := ∀ e, x = .error e → P e

theorem failsOnlyWith_ok (P : ε → Prop) (a : α) : FailsOnlyWith P (.ok a : Except ε α) :=
  fun _ h => by cases h

theorem failsOnlyWith_error {P : ε → Prop} {e : ε} (h : P e) :
    FailsOnlyWith P (.error e : Except ε α) := by
  intro e' he
  cases he
  exact h

/-- A sequence fails only as its parts do. -/
theorem FailsOnlyWith.bind {P : ε → Prop} {f : α → Except ε β} (hx : FailsOnlyWith P x)
    (hf : ∀ a, x = .ok a → FailsOnlyWith P (f a)) : FailsOnlyWith P (x >>= f) := by
  intro e he
  rcases bind_eq_error_iff.1 he with hfirst | ⟨a, ha, hsecond⟩
  · exact hx e hfirst
  · exact hf a ha e hsecond

/-- The computation fails with exactly this error, or it succeeds if there is none. -/
def FailsWith (fault : Option ε) (x : Except ε α) : Prop :=
  match fault with
  | some e => x = .error e
  | none => ∃ a, x = .ok a

/-- A sequence fails with the first fault of its parts. -/
theorem FailsWith.bind {first second : Option ε} {f : α → Except ε β} (hx : FailsWith first x)
    (hf : ∀ a, x = .ok a → FailsWith second (f a)) : FailsWith (first.or second) (x >>= f) := by
  cases first with
  | some e =>
    have hx : x = .error e := hx
    rw [hx]
    rfl
  | none =>
    obtain ⟨a, ha⟩ := hx
    rw [ha, Option.none_or]
    exact hf a ha

theorem mapError_eq_ok_iff {f : ε → ε'} {a : α} : x.mapError f = .ok a ↔ x = .ok a := by
  cases x <;> simp [Except.mapError]

theorem mapError_eq_error_iff {f : ε → ε'} {e : ε'} :
    x.mapError f = .error e ↔ ∃ e', x = .error e' ∧ f e' = e := by
  cases x <;> simp [Except.mapError]

theorem mapM_eq_ok_iff {f : α → Except ε β} {xs : List α} {ys : List β} :
    xs.mapM f = .ok ys ↔ List.Forall₂ (fun x y => f x = .ok y) xs ys := by
  induction xs generalizing ys with
  | nil =>
    rw [List.mapM_nil, List.forall₂_nil_left_iff]
    exact ⟨fun h => by cases h; rfl, fun h => by rw [h]; rfl⟩
  | cons x xs ih =>
    rw [List.mapM_cons, bind_eq_ok_iff, List.forall₂_cons_left_iff]
    constructor
    · intro hparts
      rcases hparts with ⟨y, hy, h⟩
      obtain ⟨zs, hzs, heq⟩ := bind_eq_ok_iff.1 h
      cases heq
      exact ⟨y, zs, hy, ih.1 hzs, rfl⟩
    · intro hparts
      rcases hparts with ⟨y, zs, hy, hzs, rfl⟩
      exact ⟨y, hy, bind_eq_ok_iff.2 ⟨zs, ih.2 hzs, rfl⟩⟩

/-- The first element of a list with a property is its head, or it comes later. -/
theorem exists_first_cons_iff {P Q : α → Prop} {y : α} {ys : List α} :
    (∃ before x after, y :: ys = before ++ x :: after ∧ (∀ z ∈ before, P z) ∧ Q x) ↔
      Q y ∨ P y ∧
        ∃ before x after, ys = before ++ x :: after ∧ (∀ z ∈ before, P z) ∧ Q x := by
  constructor
  · intro ⟨before, x, after, hlist, hbefore, hx⟩
    cases before with
    | nil =>
      obtain ⟨rfl, rfl⟩ := List.cons.inj hlist
      exact Or.inl hx
    | cons z before =>
      obtain ⟨rfl, rfl⟩ := List.cons.inj hlist
      obtain ⟨hy, hbefore⟩ := List.forall_mem_cons.1 hbefore
      exact Or.inr ⟨hy, before, x, after, rfl, hbefore, hx⟩
  · intro h
    rcases h with hy | ⟨hy, before, x, after, rfl, hbefore, hx⟩
    · exact ⟨[], y, ys, rfl, by simp, hy⟩
    · exact ⟨y :: before, x, after, rfl, List.forall_mem_cons.2 ⟨hy, hbefore⟩, hx⟩

/-- A list fails with the error of the first element that fails. -/
theorem mapM_eq_error_iff {f : α → Except ε β} {xs : List α} {e : ε} :
    xs.mapM f = .error e ↔ ∃ before x after, xs = before ++ x :: after ∧
      (∀ y ∈ before, ∃ b, f y = .ok b) ∧ f x = .error e := by
  induction xs with
  | nil =>
    rw [List.mapM_nil]
    simp [pure, Except.pure]
  | cons y ys ih =>
    rw [List.mapM_cons, bind_eq_error_iff, exists_first_cons_iff, ← ih]
    simp only [bind_pure_eq_error_iff, exists_and_right]

theorem forall_mem_of_forall₂ {P : β → Prop} {xs : List α} {ys : List β}
    (h : List.Forall₂ (fun _ y => P y) xs ys) : ∀ y ∈ ys, P y := by
  induction h with
  | nil => simp
  | cons hy _ ih => simpa using ⟨hy, ih⟩

end X64
