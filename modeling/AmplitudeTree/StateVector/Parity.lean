import AmplitudeTree.StateVector.Basic

/-!
# Parity operators

Operators on the parity of a set of qubits, given by the index in which exactly these are set.
-/

namespace AmplitudeTree.StateVector

variable {R : Type} [Scalar R]

def isOdd (mask index : BasisIndex) : Bool := BasisIndex.oddParity (index &&& mask)

def probParity (v : StateVector R) (mask : BasisIndex) : R :=
  if mask == 0 then 0 else v.massWhere (isOdd mask)

def projectParity (v : StateVector R) (mask : BasisIndex) (odd : Bool) (factor : R) :
    StateVector R :=
  v.mapIndexed fun index a => if isOdd mask index == odd then a.scaledBy factor else 0

/-- Measures the parity of the masked qubits, or imposes it; an outcome with only rounding
probability fails. -/
def measureParity (v : StateVector R) (mask : BasisIndex) (forced : Option Bool) :
    Except VectorError Bool × StateVector R :=
  if mask == 0 then (.ok false, v)
  else
    let oddMass := v.probParity mask
    let (outcome, v) :=
      match forced with
      | some odd => (odd, v)
      | none =>
          let (drawn, generator) : R × Generator := v.generator.unit
          (Scalar.lt drawn oddMass, { v with generator := generator })
    let kept := if outcome then oddMass else 1 - oddMass
    if Scalar.le kept Scalar.machineEpsilon then (.error (.impossibleParity outcome), v)
    else (.ok outcome, v.projectParity mask outcome (1 / Scalar.sqrt kept))

/-- Turns the phase of odd parity by `angle` and that of even parity by the opposite angle, where
the controls within the register are 1. -/
def rotateParity (v : StateVector R) (controls : List Nat) (mask : BasisIndex) (angle : R) :
    StateVector R :=
  let held := controls.foldl
    (fun held control => if control < v.width then held ||| .power control else held) 0
  let odd := Amplitude.ofPolar 1 angle
  v.mapIndexed fun index a =>
    if index.hasAll held then a * (if isOdd mask index then odd else odd.conj) else a

end AmplitudeTree.StateVector
