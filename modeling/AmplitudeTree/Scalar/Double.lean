import AmplitudeTree.Scalar

/-!
# Double-precision scalars

Double-precision numbers as the scalars that a register runs on.
-/

namespace AmplitudeTree.Scalar

/-- The length of a hypotenuse, computed on legs divided by the longer one so that
no square overflows. -/
def doubleHypot (x y : Float) : Float :=
  if x.isInf || y.isInf then 1.0 / 0.0
  else
    let longer := if x.abs < y.abs then y.abs else x.abs
    let shorter := if x.abs < y.abs then x.abs else y.abs
    if x.isNaN || y.isNaN then x + y
    else if longer == 0.0 then 0.0
    else
      let ratio := shorter / longer
      longer * (1.0 + ratio * ratio).sqrt

instance : Scalar Float where
  zero := 0.0
  one := 1.0
  ofNat := Float.ofNat
  pi := 3.141592653589793
  le x y := x ≤ y
  lt x y := x < y
  same x y := x == y
  sqrt := Float.sqrt
  hypot := doubleHypot
  arctan2 := Float.atan2
  cos := Float.cos
  sin := Float.sin
  round x := x.round.toInt64.toInt

end AmplitudeTree.Scalar
