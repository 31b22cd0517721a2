import AmplitudeTree.Scalar

/-!
# Complex amplitudes

Complex numbers over any scalars.  A quotient is the product with the conjugate of the divisor, each
part divided by the squared modulus of the divisor.
-/

namespace AmplitudeTree

structure Amplitude (R : Type) where
  re : R
  im : R

namespace Amplitude

variable {R : Type} [Scalar R]

instance : Zero (Amplitude R) := ⟨⟨0, 0⟩⟩

instance : One (Amplitude R) := ⟨⟨1, 0⟩⟩

instance : Inhabited (Amplitude R) := ⟨0⟩

def ofReal (x : R) : Amplitude R := ⟨x, 0⟩

protected def add (a b : Amplitude R) : Amplitude R := ⟨a.re + b.re, a.im + b.im⟩

protected def sub (a b : Amplitude R) : Amplitude R := ⟨a.re - b.re, a.im - b.im⟩

protected def neg (a : Amplitude R) : Amplitude R := ⟨-a.re, -a.im⟩

protected def mul (a b : Amplitude R) : Amplitude R :=
  ⟨a.re * b.re - a.im * b.im, a.re * b.im + a.im * b.re⟩

def normSq (a : Amplitude R) : R := a.re * a.re + a.im * a.im

protected def div (a b : Amplitude R) : Amplitude R :=
  ⟨(a.re * b.re + a.im * b.im) / b.normSq, (a.im * b.re - a.re * b.im) / b.normSq⟩

instance : Add (Amplitude R) := ⟨Amplitude.add⟩

instance : Sub (Amplitude R) := ⟨Amplitude.sub⟩

instance : Neg (Amplitude R) := ⟨Amplitude.neg⟩

instance : Mul (Amplitude R) := ⟨Amplitude.mul⟩

instance : Div (Amplitude R) := ⟨Amplitude.div⟩

def conj (a : Amplitude R) : Amplitude R := ⟨a.re, -a.im⟩

def norm (a : Amplitude R) : R := Scalar.hypot a.re a.im

def angle (a : Amplitude R) : R := Scalar.arctan2 a.im a.re

def ofPolar (modulus angle : R) : Amplitude R :=
  ⟨modulus * Scalar.cos angle, modulus * Scalar.sin angle⟩

def scaledBy (a : Amplitude R) (x : R) : Amplitude R := ⟨a.re * x, a.im * x⟩

def dividedBy (a : Amplitude R) (x : R) : Amplitude R := ⟨a.re / x, a.im / x⟩

/-- The amplitude of modulus one in the direction of `a`; an amplitude without modulus is kept. -/
def unit (a : Amplitude R) : Amplitude R :=
  if Scalar.lt 0 a.norm then a.dividedBy a.norm else a

def same (a b : Amplitude R) : Bool := Scalar.same a.re b.re && Scalar.same a.im b.im

/-- Whether the squared modulus is at most the threshold. -/
def negligible (threshold : R) (a : Amplitude R) : Bool := Scalar.le a.normSq threshold

end Amplitude

end AmplitudeTree
