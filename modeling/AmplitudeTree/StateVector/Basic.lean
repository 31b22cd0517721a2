import AmplitudeTree.BasisIndex
import AmplitudeTree.Gate
import AmplitudeTree.Generator

/-!
# State vectors

A state vector holds the amplitudes of all basis states of a register in an array.  Gates act on
pairs of amplitudes that differ in one qubit.  Operations on qubit ranges are maps of basis indices:
`scatter` adds amplitudes up along such a map, `overwrite` writes them along it, and `gather` fetches
them along it.
-/

namespace AmplitudeTree

/-- The groups of operators that a state vector may offer beyond access to amplitudes. -/
inductive OperatorSet where
  | arithmetic
  | parity
deriving DecidableEq

namespace OperatorSet

def label : OperatorSet → String
  | .arithmetic => "ALU"
  | .parity => "parity"

end OperatorSet

structure Capabilities where
  arithmetic : Bool
  parity : Bool

namespace Capabilities

def all : Capabilities := ⟨true, true⟩

def basic : Capabilities := ⟨false, false⟩

def supports (c : Capabilities) : OperatorSet → Bool
  | .arithmetic => c.arithmetic
  | .parity => c.parity

end Capabilities

inductive VectorError where
  | tooManyQubits (requested limit : Nat)
  | lengthMismatch (expected given : Nat)
  | qubitOutOfRange (qubit width : Nat)
  | indexOutOfRange (index : BasisIndex)
  | rangesOverlap (range : QubitRange)
  | controlInOperand
  | notDecimal (length : Nat)
  | tableTooShort (needed given : Nat)
  | modulusOutOfRange (modulus length : Nat)
  | zeroMultiplier
  | impossibleParity (odd : Bool)
  | notPermutation

namespace VectorError

def message : VectorError → String
  | .tooManyQubits requested limit =>
      s!"Dense engine supports at most {limit} qubits, {requested} requested"
  | .lengthMismatch expected given => s!"Expected {expected} amplitudes, got {given}"
  | .qubitOutOfRange qubit width => s!"Qubit {qubit} is out of range for a {width}-qubit engine"
  | .indexOutOfRange index => s!"Invalid argument: permutation {index} out of range"
  | .rangesOverlap range =>
      s!"Invalid argument: qubit range {range.start}..{range.stop} overlaps another operand"
  | .controlInOperand => "Invalid argument: control qubit inside an operand register"
  | .notDecimal length =>
      s!"Invalid argument: BCD register length {length} is not a multiple of 4"
  | .tableTooShort needed given =>
      s!"Invalid argument: lookup table needs {needed} bytes, got {given}"
  | .modulusOutOfRange modulus length =>
      s!"Invalid argument: modulus {modulus} does not fit a {length}-qubit output register"
  | .zeroMultiplier => "Invalid argument: multiplication by zero is not invertible"
  | .impossibleParity odd =>
      s!"Invalid argument: parity outcome {odd} has zero probability"
  | .notPermutation =>
      "Operation is not invertible: hash table is not a permutation of the register values"

end VectorError

structure StateVector (R : Type) where
  width : Nat
  amplitudes : Array (Amplitude R)
  generator : Generator
  capabilities : Capabilities

namespace StateVector

variable {R : Type} [Scalar R]

/-- The basis state in which all qubits are 0, unless it is too wide. -/
def create (width limit : Nat) (seed : UInt64) (capabilities : Capabilities) :
    Except VectorError (StateVector R) :=
  if limit < width || BasisIndex.wordBits ≤ width then .error (.tooManyQubits width limit)
  else .ok ⟨width, (Array.replicate (2 ^ width) 0).setIfInBounds 0 1, .ofSeed seed, capabilities⟩

def massWhere (v : StateVector R) (keep : BasisIndex → Bool) : R :=
  v.amplitudes.zipIdx.foldl
    (fun total (a, index) => if keep index then total + a.normSq else total) 0

def normSq (v : StateVector R) : R := v.massWhere fun _ => true

def checkQubit (v : StateVector R) (qubit : Nat) : Except VectorError Unit :=
  if qubit < v.width then .ok () else .error (.qubitOutOfRange qubit v.width)

def checkRange (v : StateVector R) (range : QubitRange) : Except VectorError Unit :=
  if range.length == 0 || v.width < range.stop then
    .error (.qubitOutOfRange range.stop v.width)
  else .ok ()

def controlMask (v : StateVector R) : List Nat → Except VectorError BasisIndex
  | [] => .ok 0
  | control :: controls => do
      v.checkQubit control
      let mask ← v.controlMask controls
      return .power control ||| mask

def prob (v : StateVector R) (qubit : Nat) : Except VectorError R := do
  v.checkQubit qubit
  return v.massWhere fun index => index.bit qubit

def mapIndexed (v : StateVector R) (f : BasisIndex → Amplitude R → Amplitude R) : StateVector R :=
  { v with amplitudes := v.amplitudes.mapIdx f }

/-- The amplitude of a basis state, zero outside the register. -/
def amplitudeD (v : StateVector R) (index : BasisIndex) : Amplitude R := v.amplitudes[index]?.getD 0

/-- A gate on `target` in the basis states where every control reads 1, or 0 if `anti` is set. -/
def applyControlled (v : StateVector R) (gate : Gate R) (controls : List Nat) (anti : Bool)
    (target : Nat) : Except VectorError (StateVector R) := do
  v.checkQubit target
  let mask ← v.controlMask controls
  let wanted := if anti then 0 else mask
  let targetBit := BasisIndex.power target
  return v.mapIndexed fun index a =>
    let atZero := index.clear targetBit
    if atZero &&& mask == wanted then
      if index.bit target then gate.bottomLeft * v.amplitudeD atZero + gate.bottomRight * a
      else gate.topLeft * a + gate.topRight * v.amplitudeD (index ||| targetBit)
    else a

def apply (v : StateVector R) (gate : Gate R) (target : Nat) :
    Except VectorError (StateVector R) :=
  v.applyControlled gate [] false target

def swapBits (first second : Nat) (index : BasisIndex) : BasisIndex :=
  if index.bit first == index.bit second then index
  else index ^^^ .power first ^^^ .power second

def swap (v : StateVector R) (first second : Nat) : Except VectorError (StateVector R) := do
  v.checkQubit first
  v.checkQubit second
  return v.mapIndexed fun index _ => v.amplitudeD (swapBits first second index)

/-- The first index at which the mass summed up exceeds `drawn`; the last index if there is none. -/
def sampleFrom (drawn : R) : (rest : List (Amplitude R)) → (index : BasisIndex) → (mass : R) →
    BasisIndex
  | [], index, _ => index - 1
  | a :: rest, index, mass =>
      let mass := mass + a.normSq
      if Scalar.lt drawn mass then index else sampleFrom drawn rest (index + 1) mass

def sample (v : StateVector R) : BasisIndex × StateVector R :=
  let (drawn, generator) : R × Generator := v.generator.unit
  (sampleFrom drawn v.amplitudes.toList 0 0, { v with generator := generator })

def amplitude (v : StateVector R) (index : BasisIndex) : Except VectorError (Amplitude R) :=
  match v.amplitudes[index]? with
  | some a => .ok a
  | none => .error (.indexOutOfRange index)

def setAmplitude (v : StateVector R) (index : BasisIndex) (a : Amplitude R) :
    Except VectorError (StateVector R) :=
  if index < v.amplitudes.size then .ok { v with amplitudes := v.amplitudes.setIfInBounds index a }
  else .error (.indexOutOfRange index)

def setAmplitudes (v : StateVector R) (amplitudes : Array (Amplitude R)) :
    Except VectorError (StateVector R) :=
  if amplitudes.size == v.amplitudes.size then .ok { v with amplitudes := amplitudes }
  else .error (.lengthMismatch v.amplitudes.size amplitudes.size)

/-- Adds every amplitude to the place that `target` gives for its index.  An amplitude without a
place is dropped. -/
def scatter (v : StateVector R) (target : BasisIndex → Option BasisIndex) : StateVector R :=
  let blank := Array.replicate v.amplitudes.size 0
  { v with
    amplitudes := v.amplitudes.zipIdx.foldl
      (fun out (a, index) =>
        match target index with
        | some place => out.modify place (· + a)
        | none => out)
      blank }

/-- Writes every amplitude, perhaps negated, to the place of its index, over what was there. -/
def overwrite (v : StateVector R) (target : BasisIndex → BasisIndex) (negate : BasisIndex → Bool) :
    StateVector R :=
  let blank := Array.replicate v.amplitudes.size 0
  { v with
    amplitudes := v.amplitudes.zipIdx.foldl
      (fun out (a, index) => out.setIfInBounds (target index) (if negate index then -a else a))
      blank }

/-- Fetches every amplitude from the place that `source` gives for its index.  An index without a
source gets amplitude zero. -/
def gather (v : StateVector R) (source : BasisIndex → Option BasisIndex) : StateVector R :=
  v.mapIndexed fun index _ => (source index).elim 0 v.amplitudeD

def negateWhere (v : StateVector R) (test : BasisIndex → Bool) : StateVector R :=
  v.mapIndexed fun index a => if test index then -a else a

/-! ## Updates -/

/-- An operator on a state vector, which returns a value or refuses.  What it has written before it
refuses stays written. -/
abbrev Update (R α : Type) := ExceptT VectorError (StateM (StateVector R)) α

namespace Update

variable {α : Type}

def runOn (op : Update R α) (v : StateVector R) : Except VectorError α × StateVector R :=
  StateT.run (ExceptT.run op) v

def query (answer : StateVector R → Except VectorError α) : Update R α := do
  ExceptT.mk (pure (answer (← get)))

def check (condition : StateVector R → Except VectorError Unit) : Update R Unit := query condition

/-- The state vector that an operator leaves behind, also if it refuses. -/
def left (op : Update R α) (v : StateVector R) : StateVector R := (op.runOn v).2

def outcome (op : Update R α) (v : StateVector R) : Except VectorError (α × StateVector R) :=
  match op.runOn v with
  | (.ok a, left) => .ok (a, left)
  | (.error e, _) => .error e

def changed (op : Update R α) (v : StateVector R) : Except VectorError (StateVector R) :=
  (op.outcome v).map Prod.snd

end Update

end StateVector

structure VectorFactory where
  limit : Nat
  capabilities : Capabilities

namespace VectorFactory

def defaultLimit : Nat := 28

def default : VectorFactory := ⟨defaultLimit, .all⟩

def ofLimit (limit : Nat) : VectorFactory := ⟨limit, .all⟩

def create {R : Type} [Scalar R] (f : VectorFactory) (width : Nat) (seed : UInt64) :
    Except VectorError (StateVector R) :=
  StateVector.create width f.limit seed f.capabilities

end VectorFactory

end AmplitudeTree
