import X64.Text.Numeral

/-!
# The Fibonacci sequence

The sequence 1, 1, 2, 3, 5, … over 32-bit integers, computed from its two latest terms. One
evaluator wraps around on overflow, the other one reports it.
-/

namespace X64.Fibonacci

/-- The step at which a term left the range of 32-bit integers, and the index asked for. -/
structure Overflow where
  index : Int32
  step : Nat
  deriving DecidableEq, Repr

/-- The wording of the error. -/
def Overflow.message (e : Overflow) : String :=
  "Term " ++ Text.integer e.index.toInt ++ " does not fit in i32 (overflowed at step " ++
    Text.decimal e.step ++ ")"

/-- The number of additions on the way to a term. Terms up to the first need none. -/
def additions (n : Int32) : Nat := (n.toInt - 1).toNat

/-- The later of two neighbouring terms after a number of further additions, modulo `2 ^ 32`. -/
def iterate : Nat → Int32 → Int32 → Int32
  | 0, _, current => current
  | k + 1, previous, current => iterate k current (previous + current)

/-- The term with the given index, modulo `2 ^ 32`. Indices below one give the first term. -/
def evaluate (n : Int32) : Int32 := iterate (additions n) 0 1

/-- The sum of two integers, if it is in range. -/
def addChecked? (a b : Int32) : Option Int32 :=
  if Int32.minValue.toInt ≤ a.toInt + b.toInt ∧ a.toInt + b.toInt ≤ Int32.maxValue.toInt then
    some (a + b)
  else none

/-- The later of two neighbouring terms after further additions, which are numbered from `step`. The
number of the first addition that overflows is the error. -/
def iterateChecked : Nat → Nat → Int32 → Int32 → Except Nat Int32
  | 0, _, _, current => .ok current
  | k + 1, step, previous, current =>
    match addChecked? previous current with
    | some next => iterateChecked k (step + 1) current next
    | none => .error step

/-- The term with the given index, if it and all terms before it are in range. -/
def evaluateChecked (n : Int32) : Except Overflow Int32 :=
  (iterateChecked (additions n) 1 0 1).mapError fun step => { index := n, step }

/-- The index of the sample term. -/
def sampleIndex : Int32 := 7

/-- The sample term. -/
def sampleTerm : Int32 := 13

end X64.Fibonacci
