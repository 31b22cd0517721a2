import AmplitudeTree.Amplitude

/-!
# Single-qubit gates

A gate on one qubit is a two-by-two matrix of amplitudes.  The top row gives the new amplitude of
the qubit at 0, the bottom row the new amplitude of the qubit at 1.
-/

namespace AmplitudeTree

/-- A two-by-two matrix, acting on the amplitudes of one qubit. -/
structure Gate (R : Type) where
  topLeft : Amplitude R
  topRight : Amplitude R
  bottomLeft : Amplitude R
  bottomRight : Amplitude R

namespace Gate

variable {R : Type} [Scalar R]

def diagonal (top bottom : Amplitude R) : Gate R := ⟨top, 0, 0, bottom⟩

/-- The gate that exchanges 0 and 1, with a factor for each row. -/
def antidiagonal (top bottom : Amplitude R) : Gate R := ⟨0, top, bottom, 0⟩

def identity : Gate R := diagonal 1 1

def hadamard : Gate R :=
  let s : Amplitude R := .ofReal (Scalar.sqrt (1 / Scalar.two))
  ⟨s, s, s, -s⟩

def pauliX : Gate R := antidiagonal 1 1

def pauliY : Gate R := antidiagonal ⟨0, -1⟩ ⟨0, 1⟩

def pauliZ : Gate R := diagonal 1 ⟨-1, 0⟩

def phaseS : Gate R := diagonal 1 ⟨0, 1⟩

def phaseSInverse : Gate R := diagonal 1 ⟨0, -1⟩

/-- The gate that turns the phase of 1 by `angle`. -/
def phaseShift (angle : R) : Gate R := diagonal 1 (.ofPolar 1 angle)

def phaseT : Gate R := phaseShift (Scalar.pi / Scalar.ofNat 4)

def phaseTInverse : Gate R := phaseShift (-Scalar.pi / Scalar.ofNat 4)

def sqrtX : Gate R :=
  let half : Amplitude R := ⟨1 / Scalar.two, 0⟩
  let halfI : Amplitude R := ⟨0, 1 / Scalar.two⟩
  ⟨half + halfI, half - halfI, half - halfI, half + halfI⟩

def dagger (g : Gate R) : Gate R :=
  ⟨g.topLeft.conj, g.bottomLeft.conj, g.topRight.conj, g.bottomRight.conj⟩

def sqrtXInverse : Gate R := sqrtX.dagger

def rotateX (angle : R) : Gate R :=
  let c := Scalar.cos (angle / Scalar.two)
  let s := Scalar.sin (angle / Scalar.two)
  ⟨⟨c, 0⟩, ⟨0, -s⟩, ⟨0, -s⟩, ⟨c, 0⟩⟩

def rotateY (angle : R) : Gate R :=
  let c := Scalar.cos (angle / Scalar.two)
  let s := Scalar.sin (angle / Scalar.two)
  ⟨⟨c, 0⟩, ⟨-s, 0⟩, ⟨s, 0⟩, ⟨c, 0⟩⟩

def rotateZ (angle : R) : Gate R :=
  diagonal (.ofPolar 1 (-angle / Scalar.two)) (.ofPolar 1 (angle / Scalar.two))

def rotation (polar upper lower : R) : Gate R :=
  let c := Scalar.cos (polar / Scalar.two)
  let s := Scalar.sin (polar / Scalar.two)
  ⟨⟨c, 0⟩, -.ofPolar s lower, .ofPolar s upper, .ofPolar c (upper + lower)⟩

/-- The gate that turns the phase of 1 by `angle` and the phase of 0 by the opposite angle. -/
def parityPhase (angle : R) : Gate R := diagonal (.ofPolar 1 (-angle)) (.ofPolar 1 angle)

/-- The matrix product: `g.after f` acts like `f` followed by `g`. -/
def after (g f : Gate R) : Gate R :=
  ⟨g.topLeft * f.topLeft + g.topRight * f.bottomLeft,
   g.topLeft * f.topRight + g.topRight * f.bottomRight,
   g.bottomLeft * f.topLeft + g.bottomRight * f.bottomLeft,
   g.bottomLeft * f.topRight + g.bottomRight * f.bottomRight⟩

def tolerance : R := 1 / Scalar.ofNat (10 ^ 10)

/-- The inverse matrix, if the determinant is not within the tolerance of zero. -/
def inverse? (g : Gate R) : Option (Gate R) :=
  let det := g.topLeft * g.bottomRight - g.topRight * g.bottomLeft
  if det.negligible (tolerance * tolerance) then none
  else some ⟨g.bottomRight / det, -g.topRight / det, -g.bottomLeft / det, g.topLeft / det⟩

def isDiagonal (threshold : R) (g : Gate R) : Bool :=
  g.topRight.negligible threshold && g.bottomLeft.negligible threshold

def isAntidiagonal (threshold : R) (g : Gate R) : Bool :=
  g.topLeft.negligible threshold && g.bottomRight.negligible threshold

def isScalar (threshold : R) (g : Gate R) : Bool :=
  g.isDiagonal threshold && (g.topLeft - g.bottomRight).negligible threshold

def isIdentity (threshold : R) (g : Gate R) : Bool :=
  g.isScalar threshold && (g.topLeft - 1).negligible threshold

def apply (g : Gate R) (zero one : Amplitude R) : Amplitude R × Amplitude R :=
  (g.topLeft * zero + g.topRight * one, g.bottomLeft * zero + g.bottomRight * one)

/-- The product `next.after g`, made exactly diagonal or antidiagonal where it is so
within the threshold. -/
def followedBy (threshold : R) (g next : Gate R) : Gate R :=
  let product := next.after g
  if product.isDiagonal threshold then
    diagonal product.topLeft.unit product.bottomRight.unit
  else if product.isAntidiagonal threshold then
    antidiagonal product.topRight.unit product.bottomLeft.unit
  else product

end Gate

end AmplitudeTree
