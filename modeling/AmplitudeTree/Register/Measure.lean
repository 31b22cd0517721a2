import AmplitudeTree.Register.Vector
import AmplitudeTree.StateVector.Parity
import AmplitudeTree.Tree.Measure

/-!
# Measurement

A measurement draws its outcome, or imposes one that is given.  Outcomes on single qubits, ranges
and whole registers are drawn from the tree; the parity of several qubits needs a state vector.
-/

namespace AmplitudeTree.Register

variable {R : Type} [Scalar R]

def draw : Action R R :=
  modifyGet fun reg =>
    let (drawn, generator) : R × Generator := reg.generator.unit
    (drawn, { reg with generator := generator })

def prob (qubit : Nat) : Action R R := do
  Action.check (·.checkQubit qubit)
  modify (·.settleUnlessDiagonal qubit)
  return (← get).tree.prob qubit

/-- The squared modulus of one amplitude; if it is one, the register is reset
to this basis state. -/
def probIndex (index : BasisIndex) : Action R R := do
  Action.check (·.checkIndex index)
  modify settleAll
  let reg ← get
  let a := reg.tree.amplitude index
  if Scalar.le (1 - reg.threshold) a.normSq then
    setBasis index (a.dividedBy a.norm)
    return 1
  return a.normSq

def chooseOutcome (forced : Option Bool) (one : R) : Action R Bool :=
  match forced with
  | some outcome => return outcome
  | none => return Scalar.lt (← draw) one

/-- Measures a qubit, or imposes an outcome.  A drawn outcome without probability gives way to the
other one; a diagonal gate that waits on the qubit is dropped, as it only turns the global phase. -/
def measureQubit (qubit : Nat) (forced : Option Bool) (collapse : Bool) : Action R Bool := do
  Action.check (·.checkQubit qubit)
  modify (·.settleUnlessDiagonal qubit)
  let reg ← get
  let one := reg.tree.prob qubit
  let chosen ← chooseOutcome forced one
  let likelihood := if chosen then one else 1 - one
  let impossible := Scalar.le likelihood reg.threshold
  if impossible && forced.isSome then throw (.impossibleOutcome qubit)
  let outcome := if impossible then !chosen else chosen
  if !collapse then return outcome
  let kept ← modifyGet fun reg =>
    let (kept, tree) := reg.tree.collapse qubit outcome
    (kept, { reg with pending := reg.pending.erase qubit, tree := tree })
  if !kept then throw (.impossibleOutcome qubit)
  modify afterChange
  return outcome

def measure (qubit : Nat) : Action R Bool := measureQubit qubit none true

/-- Measures `length` qubits from `qubit` on, or imposes bits of `forced`; their values are returned
as bits from `place` on. -/
def measureFrom (qubit place : Nat) (forced : Option BasisIndex) :
    (length : Nat) → Action R BasisIndex
  | 0 => return 0
  | length + 1 => do
      let outcome ← measureQubit qubit (forced.map fun value => value.bit place) true
      let rest ← measureFrom (qubit + 1) (place + 1) forced length
      return (if outcome then .power place else 0) ||| rest

def measureRange (range : QubitRange) (forced : Option BasisIndex) : Action R BasisIndex := do
  Action.check (·.checkRange range)
  measureFrom range.start 0 forced range.length

def flipFrom (qubit place : Nat) (measured value : BasisIndex) : (length : Nat) → Action R Unit
  | 0 => return
  | length + 1 => do
      if measured.bit place != value.bit place then apply .pauliX qubit
      flipFrom (qubit + 1) (place + 1) measured value length

def prepareRange (range : QubitRange) (value : BasisIndex) : Action R Unit := do
  let measured ← measureRange range none
  flipFrom range.start 0 measured value range.length

/-- Draws a basis state.  With `collapse` the register is set to it, its phase kept. -/
def sampleIndex (collapse : Bool) : Action R BasisIndex := do
  modify settleAll
  let reg ← get
  if Scalar.le reg.tree.normSq reg.threshold then throw .zeroNorm
  let (index, generator) := reg.tree.sample Generator.unit reg.generator
  set { reg with generator := generator }
  if collapse then
    let a := reg.tree.amplitude index
    setBasis index (if Scalar.lt 0 a.norm then a.dividedBy a.norm else 1)
  return index

def measureAll : Action R BasisIndex := sampleIndex true

/-- Draws a basis state; bit `k` of the result tells whether it has a bit of the `k`-th mask. -/
def sampleMasks (masks : List BasisIndex) : Action R BasisIndex := do
  let index ← sampleIndex false
  return masks.zipIdx.foldl
    (fun result (mask, place) =>
      if index &&& mask != 0 then result ||| .power place else result) 0

def checkMask (reg : Register R) (mask : BasisIndex) : Except (RegisterError R) Unit :=
  reg.checkQubit mask.highestSet

def maskWord (reg : Register R) (mask : BasisIndex) : Except (RegisterError R) BasisIndex :=
  (mask.checkWord reg.width).mapError .indexOutOfRange

def probParity (mask : BasisIndex) : Action R R := do
  if mask == 0 then return 0
  Action.check (·.checkMask mask)
  if mask.isPower then prob mask.highestSet
  else
    let mask ← Action.query (·.maskWord mask)
    inspectVector [.parity] fun v => .ok (v.probParity mask)

def measureParity (mask : BasisIndex) (forced : Option Bool) : Action R Bool := do
  if mask == 0 then return false
  Action.check (·.checkMask mask)
  if mask.isPower then measureQubit mask.highestSet forced true
  else
    let mask ← Action.query (·.maskWord mask)
    withVector [.parity] fun v =>
      let (outcome, v) := v.measureParity mask forced
      outcome.map fun odd => (odd, v)

/-- Turns the phase of odd parity by `angle` and that of even parity by the opposite angle, where
all controls are 1. -/
def rotateParity (controls : List Nat) (mask : BasisIndex) (angle : R) : Action R Unit := do
  if mask == 0 then return
  Action.check (·.checkMask mask)
  if mask.isPower then applyControlled controls (.parityPhase angle) mask.highestSet
  else
    controls.forM fun control => Action.check (·.checkQubit control)
    let mask ← Action.query (·.maskWord mask)
    withVector [.parity] fun v => .ok ((), v.rotateParity controls mask angle)

end AmplitudeTree.Register
