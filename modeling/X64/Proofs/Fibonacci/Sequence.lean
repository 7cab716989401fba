import X64.Fibonacci
import X64.Proofs.Except
import Mathlib.Data.Nat.Fib.Basic

/-!
# Terms of the sequence

Both evaluators hold two neighbouring terms and go on by additions. `term` is a term of the sequence
over the natural numbers, taken modulo `2 ^ 32`, and `iterate_term` says that the loop goes from
term to term. The loop that checks its sums gives the same terms as long as they are in range
(`iterateChecked_term`), and it stops at the first one that is not (`iterateChecked_term_error`).

For arbitrary accumulators, `iterateChecked_eq_ok_iff` tells from the exact `sums` whether the
checked loop comes to its end.
-/

namespace X64.Fibonacci

/-! ## Terms modulo `2 ^ 32` -/

/-- The term with index `i`, modulo `2 ^ 32`. -/
def term (i : Nat) : Int32 := Int32.ofInt (Nat.fib i)

theorem term_add (i : Nat) : term i + term (i + 1) = term (i + 2) := by
  rw [term, term, term, Nat.fib_add_two, Int.natCast_add, Int32.ofInt_add]

/-- A term in range is kept as it is. -/
theorem toInt_term {i : Nat} (h : (Nat.fib i : Int) ≤ Int32.maxValue.toInt) :
    (term i).toInt = Nat.fib i := by
  have hmax : Int32.maxValue.toInt = 2 ^ 31 - 1 := rfl
  exact Int32.toInt_ofInt_of_le (by omega) (by omega)

/-- The loop goes from term to term. -/
theorem iterate_term (k i : Nat) : iterate k (term i) (term (i + 1)) = term (i + 1 + k) := by
  induction k generalizing i with
  | zero => rfl
  | succ k ih =>
    rw [iterate, term_add, ih (i + 1)]
    congr 1
    omega

/-- The index of the term that is computed. Indices below one stand for the first term. -/
theorem one_add_additions (n : Int32) : 0 + 1 + additions n = (max n.toInt 1).toNat := by
  unfold additions
  omega

theorem evaluate_eq_term (n : Int32) : evaluate n = term (max n.toInt 1).toNat := by
  rw [← one_add_additions, ← iterate_term]
  rfl

/-! ## Checked sums -/

/-- Whether a number is a 32-bit integer. -/
def InRange (z : Int) : Prop := Int32.minValue.toInt ≤ z ∧ z ≤ Int32.maxValue.toInt

instance (z : Int) : Decidable (InRange z) := inferInstanceAs (Decidable (_ ∧ _))

/-- The sums that the loop needs for further additions, each of them before it wraps around. -/
def sums : Nat → Int32 → Int32 → List Int
  | 0, _, _ => []
  | k + 1, previous, current =>
    (previous.toInt + current.toInt) :: sums k current (previous + current)

theorem addChecked?_of_inRange {a b : Int32} (h : InRange (a.toInt + b.toInt)) :
    addChecked? a b = some (a + b) :=
  if_pos h

theorem addChecked?_of_not_inRange {a b : Int32} (h : ¬InRange (a.toInt + b.toInt)) :
    addChecked? a b = none :=
  if_neg h

/-- The checked loop comes to its end if no sum is out of range, and then it gives what the other
loop gives. -/
theorem iterateChecked_eq_ok_iff {k step : Nat} {previous current v : Int32} :
    iterateChecked k step previous current = .ok v ↔
      (∀ z ∈ sums k previous current, InRange z) ∧ iterate k previous current = v := by
  induction k generalizing step previous current with
  | zero => simp [iterateChecked, sums, iterate]
  | succ k ih =>
    rw [iterateChecked, sums, iterate, List.forall_mem_cons]
    by_cases h : InRange (previous.toInt + current.toInt)
    · rw [addChecked?_of_inRange h, and_iff_right h]
      exact ih
    · rw [addChecked?_of_not_inRange h]
      simp [h]

/-- A sum of neighbouring terms is the next term, as long as the two are in range. -/
theorem toInt_term_add {i : Nat} (h : (Nat.fib (i + 1) : Int) ≤ Int32.maxValue.toInt) :
    (term i).toInt + (term (i + 1)).toInt = Nat.fib (i + 2) := by
  have hle : Nat.fib i ≤ Nat.fib (i + 1) := Nat.fib_mono (Nat.le_succ i)
  rw [toInt_term (by omega), toInt_term h, Nat.fib_add_two, Int.natCast_add]

theorem inRange_fib_iff (i : Nat) :
    InRange (Nat.fib i) ↔ (Nat.fib i : Int) ≤ Int32.maxValue.toInt := by
  have hmin : Int32.minValue.toInt ≤ 0 := by decide
  unfold InRange
  omega

/-- A turn of the checked loop that gives a term in range. -/
theorem iterateChecked_term_succ {i : Nat} (h : (Nat.fib (i + 2) : Int) ≤ Int32.maxValue.toInt)
    (k step : Nat) :
    iterateChecked (k + 1) step (term i) (term (i + 1)) =
      iterateChecked k (step + 1) (term (i + 1)) (term (i + 2)) := by
  have hle : Nat.fib (i + 1) ≤ Nat.fib (i + 2) := Nat.fib_mono (Nat.le_succ _)
  have hsum : InRange ((term i).toInt + (term (i + 1)).toInt) := by
    rw [toInt_term_add (by omega), inRange_fib_iff]
    exact h
  rw [iterateChecked, addChecked?_of_inRange hsum, term_add]

/-- If the last term is in range, so are those before it. -/
theorem iterateChecked_term {k i : Nat}
    (h : (Nat.fib (i + 1 + k) : Int) ≤ Int32.maxValue.toInt) (step : Nat) :
    iterateChecked k step (term i) (term (i + 1)) = .ok (term (i + 1 + k)) := by
  induction k generalizing i step with
  | zero => rfl
  | succ k ih =>
    have hlast : i + 1 + (k + 1) = i + 1 + 1 + k := by omega
    rw [hlast] at h ⊢
    have hle : Nat.fib (i + 2) ≤ Nat.fib (i + 1 + 1 + k) := Nat.fib_mono (by omega)
    rw [iterateChecked_term_succ (by omega)]
    exact ih h (step + 1)

/-- The first term out of range stops the loop. -/
theorem iterateChecked_term_error {j k i : Nat}
    (hlast : (Nat.fib (i + 1 + j) : Int) ≤ Int32.maxValue.toInt)
    (hnext : Int32.maxValue.toInt < (Nat.fib (i + 2 + j) : Int)) (step : Nat) :
    iterateChecked (j + k + 1) step (term i) (term (i + 1)) = .error (step + j) := by
  induction j generalizing i step with
  | zero =>
    have hsum : ¬InRange ((term i).toInt + (term (i + 1)).toInt) := by
      rw [toInt_term_add hlast, inRange_fib_iff]
      exact Int.not_le.2 hnext
    rw [iterateChecked, addChecked?_of_not_inRange hsum]
    rfl
  | succ j ih =>
    have hturns : j + 1 + k = j + k + 1 := by omega
    have hlast' : i + 1 + (j + 1) = i + 1 + 1 + j := by omega
    have hnext' : i + 2 + (j + 1) = i + 1 + 2 + j := by omega
    rw [hlast'] at hlast
    rw [hnext'] at hnext
    have hle : Nat.fib (i + 2) ≤ Nat.fib (i + 1 + 1 + j) := Nat.fib_mono (by omega)
    rw [iterateChecked_term_succ (by omega), hturns, ih hlast hnext]
    congr 1
    omega

/-! ## The evaluators -/

/-- The last term in range, and the first one out of it. -/
theorem fib_limit :
    (Nat.fib 46 : Int) ≤ Int32.maxValue.toInt ∧ Int32.maxValue.toInt < (Nat.fib 47 : Int) := by
  decide +kernel

/-- The evaluators agree with the sequence over the natural numbers. One gives each term modulo
`2 ^ 32`. The other one gives the terms up to the 46th, which are in range, and fails at step 46 for
all others, so it succeeds exactly if no sum on the way is out of range. -/
theorem evaluators_follow_sequence (n : Int32) :
    (evaluate n).toInt = Int.bmod (Nat.fib (max n.toInt 1).toNat) Int32.size ∧
      (n.toInt ≤ 46 → evaluateChecked n = .ok (evaluate n) ∧
        (evaluate n).toInt = Nat.fib (max n.toInt 1).toNat) ∧
      (47 ≤ n.toInt → evaluateChecked n = .error { index := n, step := 46 }) ∧
      ((∃ v, evaluateChecked n = .ok v) ↔ ∀ z ∈ sums (additions n) 0 1, InRange z) := by
  obtain ⟨hlast, hnext⟩ := fib_limit
  have hindex := one_add_additions n
  refine ⟨?_, fun hle => ?_, fun hge => ?_, ?_⟩
  · rw [evaluate_eq_term]
    exact Int32.toInt_ofInt
  · have hmono : Nat.fib (max n.toInt 1).toNat ≤ Nat.fib 46 := Nat.fib_mono (by omega)
    have hterm : (Nat.fib (max n.toInt 1).toNat : Int) ≤ Int32.maxValue.toInt := by omega
    rw [evaluate_eq_term]
    refine ⟨?_, toInt_term hterm⟩
    rw [← hindex] at hterm ⊢
    exact congrArg (Except.mapError _) (iterateChecked_term hterm 1)
  · obtain ⟨k, hk⟩ : ∃ k, additions n = 45 + k + 1 :=
      ⟨additions n - 46, by unfold additions; omega⟩
    rw [evaluateChecked, hk]
    exact congrArg (Except.mapError _) (iterateChecked_term_error (i := 0) hlast hnext 1)
  · unfold evaluateChecked
    simp only [mapError_eq_ok_iff, iterateChecked_eq_ok_iff, exists_and_left, exists_eq', and_true]

example : evaluate sampleIndex = sampleTerm := by
  decide

/-- At the limit: the 46th term is in range, and the 47th one is not, so it wraps around. -/
theorem evaluators_at_limit :
    (evaluateChecked 46 = .ok (evaluate 46) ∧ (evaluate 46).toInt = 1836311903) ∧
      evaluateChecked 47 = .error { index := 47, step := 46 } ∧
      (evaluate 47).toInt = -1323752223 := by
  obtain ⟨-, hok, -, -⟩ := evaluators_follow_sequence 46
  obtain ⟨hwrapped, -, herror, -⟩ := evaluators_follow_sequence 47
  obtain ⟨hok, hterm⟩ := hok (by decide)
  exact ⟨⟨hok, hterm.trans (by decide +kernel)⟩, herror (by decide),
    hwrapped.trans (by decide +kernel)⟩

end X64.Fibonacci
