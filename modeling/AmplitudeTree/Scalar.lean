import AmplitudeTree.Power

/-!
# Real scalars

Everything a register computes with is a real number: the parts of an amplitude, a probability, a
threshold.  The class below lists the operations that are used, so that one set of definitions runs
on double-precision numbers and is reasoned about over the real numbers.  The three tests answer in
`Bool`, and a test that involves an undefined double answers `false`.
-/

namespace AmplitudeTree

/-- The real-number operations that amplitudes and probabilities are computed with. -/
class Scalar (R : Type) extends Zero R, One R, Add R, Sub R, Mul R, Div R, Neg R where
  /-- The scalar of a natural number. -/
  ofNat : Nat → R
  /-- Half the circumference of the unit circle. -/
  pi : R
  /-- The test `x ≤ y`. -/
  le : R → R → Bool
  /-- The test `x < y`. -/
  lt : R → R → Bool
  /-- The test `x = y`. -/
  same : R → R → Bool
  /-- The non-negative square root. -/
  sqrt : R → R
  /-- The length of the hypotenuse of a right triangle with the given legs. -/
  hypot : R → R → R
  /-- `arctan2 y x` is the angle of the point `(x, y)`. -/
  arctan2 : R → R → R
  /-- The cosine of an angle. -/
  cos : R → R
  /-- The sine of an angle. -/
  sin : R → R
  /-- The nearest integer, a half going away from zero. -/
  round : R → Int

namespace Scalar

variable {R : Type} [Scalar R]

def two : R := Scalar.ofNat 2

def abs (x : R) : R := if lt x 0 then -x else x

/-- The larger of two scalars; `fallback` when `x` is undefined. -/
def maxOr (x fallback : R) : R := if le fallback x then x else fallback

def clampUnit (x : R) : R := if lt x 0 then 0 else if lt 1 x then 1 else x

def machineEpsilon : R := 1 / Scalar.ofNat (2 ^ 52)

/-- The sum of the terms of a list, added from the left onto zero. -/
def sum (terms : List R) : R := terms.foldl (· + ·) 0

end Scalar

end AmplitudeTree
