import AmplitudeTree.Config.Basic
import AmplitudeTree.Generator
import AmplitudeTree.PendingGates
import AmplitudeTree.StateVector.Basic
import AmplitudeTree.Tree.Staging

/-!
# Quantum registers

A register is a decision tree of amplitudes together with the gates that wait to be applied to it,
its settings, a generator for measurements, and the factory of the state vectors that it uses for
operations without an algorithm on trees.  The state that a register stands for is that of its tree
after all waiting gates.

An action on a register either returns a value or fails; in both cases it leaves a register behind,
since a failing action may have applied waiting gates or drawn from the generator.
-/

namespace AmplitudeTree

structure Register (R : Type) where
  tree : Tree R
  pending : PendingGates R
  config : Config R
  generator : Generator
  factory : VectorFactory

inductive RegisterError (R : Type) where
  | qubitOutOfRange (qubit width : Nat)
  | rangeOutOfBounds (range : QubitRange) (width : Nat)
  | repeatedQubit (qubit : Nat)
  | indexOutOfRange (cause : IndexError)
  | lengthMismatch (expected given : Nat)
  | zeroNorm
  | impossibleOutcome (qubit : Nat)
  | notSeparable (range : QubitRange)
  | missingOperators (missing : OperatorSet)
  | tooManyQubits (requested limit : Nat)
  | config (cause : ConfigError R)
  | vector (cause : VectorError)

namespace RegisterError

def message : RegisterError Float → String
  | .qubitOutOfRange qubit width => s!"Qubit {qubit} out of range for a {width}-qubit register"
  | .rangeOutOfBounds range width =>
      s!"Qubit range {range.start}+{range.length} out of bounds for a {width}-qubit register"
  | .repeatedQubit qubit => s!"Qubit {qubit} used more than once in a single gate"
  | .indexOutOfRange cause => cause.message
  | .lengthMismatch expected given => s!"Expected {expected} amplitudes, got {given}"
  | .zeroNorm => "State has zero norm"
  | .impossibleOutcome qubit => s!"Forced outcome on qubit {qubit} has zero probability"
  | .notSeparable range =>
      s!"Qubit range {range.start}+{range.length} is not separable from the register"
  | .missingOperators missing => s!"Dense engine does not provide the {missing.label} capability"
  | .tooManyQubits requested limit => s!"{requested} qubits exceed the dense limit of {limit}"
  | .config cause => s!"Configuration error: {cause.message}"
  | .vector cause => s!"Dense engine error: {cause.message}"

end RegisterError

abbrev Action (R α : Type) := ExceptT (RegisterError R) (StateM (Register R)) α

namespace Action

variable {R α : Type}

def runOn (action : Action R α) (reg : Register R) : Except (RegisterError R) α × Register R :=
  StateT.run (ExceptT.run action) reg

def ofExcept (result : Except (RegisterError R) α) : Action R α := ExceptT.mk (pure result)

def query (answer : Register R → Except (RegisterError R) α) : Action R α := do
  ofExcept (answer (← get))

def check (condition : Register R → Except (RegisterError R) Unit) : Action R Unit :=
  query condition

end Action

namespace Register

variable {R : Type} [Scalar R]

/-- The register of a basis state.  `entropy` is the seed that is used if the settings fix none. -/
def create (width : Nat) (index : BasisIndex) (config : Config R) (entropy : UInt64) :
    Except (RegisterError R) (Register R) := do
  config.validate.mapError .config
  if BasisIndex.maxWidth < width then throw (.tooManyQubits width BasisIndex.maxWidth)
  (index.check width).mapError .indexOutOfRange
  return {
    tree := .basis width index 1 config.separability
    pending := .empty width
    config := config
    generator := .ofSeed ((config.seed.map UInt64.ofNat).getD entropy)
    factory := .ofLimit config.denseLimit }

def width (reg : Register R) : Nat := reg.tree.width

def threshold (reg : Register R) : R := reg.config.separability

/-! ## Conditions -/

def checkQubit (reg : Register R) (qubit : Nat) : Except (RegisterError R) Unit :=
  if qubit < reg.width then .ok () else .error (.qubitOutOfRange qubit reg.width)

def checkRange (reg : Register R) (range : QubitRange) : Except (RegisterError R) Unit :=
  if range.stop ≤ reg.width then .ok () else .error (.rangeOutOfBounds range reg.width)

def checkIndex (reg : Register R) (index : BasisIndex) : Except (RegisterError R) Unit :=
  (index.check reg.width).mapError .indexOutOfRange

def checkDense (reg : Register R) : Except (RegisterError R) Unit :=
  if reg.config.denseLimit < reg.width then
    .error (.tooManyQubits reg.width reg.config.denseLimit)
  else .ok ()

def checkOperators (reg : Register R) (required : List OperatorSet) :
    Except (RegisterError R) Unit :=
  match required.find? fun set => !reg.factory.capabilities.supports set with
  | some missing => .error (.missingOperators missing)
  | none => .ok ()

def checkControls (reg : Register R) (target : Nat) : List Nat → Except (RegisterError R) Unit
  | [] => .ok ()
  | control :: controls => do
      reg.checkQubit control
      if control == target then throw (.repeatedQubit control)
      reg.checkControls target controls

def firstRepeated : List Nat → Option Nat
  | a :: b :: rest => if a == b then some a else firstRepeated (b :: rest)
  | _ => none

/-- Accepts the qubits of a gate and returns its controls in ascending order with their values. -/
def checkGate (reg : Register R) (controls : List Nat) (value : Bool) (target : Nat) :
    Except (RegisterError R) (List Control) := do
  reg.checkQubit target
  reg.checkControls target controls
  let sorted := controls.mergeSort
  match firstRepeated sorted with
  | some qubit => throw (.repeatedQubit qubit)
  | none => return sorted.map fun qubit => ⟨qubit, value⟩

/-! ## Waiting gates -/

def afterChange (reg : Register R) : Register R :=
  { reg with tree := if reg.config.autoReduce then reg.tree.reduce else reg.tree.reduceIfBloated }

def settle (reg : Register R) (qubit : Nat) : Register R :=
  match reg.pending.get? qubit with
  | none => reg
  | some gate =>
      { reg with pending := reg.pending.erase qubit, tree := reg.tree.settle gate qubit }

def settleUnlessDiagonal (reg : Register R) (qubit : Nat) : Register R :=
  match reg.pending.get? qubit with
  | none => reg
  | some gate => if gate.isDiagonal reg.threshold then reg else reg.settle qubit

def settleAll (reg : Register R) : Register R :=
  if reg.pending.any then ((List.range reg.width).foldl settle reg).afterChange else reg

/-! ## Gates -/

/-- A gate on one qubit.  It waits on the qubit, multiplied with the gate that
waits there already. -/
def apply (gate : Gate R) (target : Nat) : Action R Unit := do
  Action.check (·.checkQubit target)
  modify fun reg => { reg with pending := reg.pending.append target gate reg.threshold }

/-- A gate on `target` where every control has the given value.  Diagonal gates may go on waiting on
the controls, and on the target if the gate itself is diagonal. -/
def applyWhere (controls : List Nat) (value : Bool) (gate : Gate R) (target : Nat) :
    Action R Unit := do
  if controls.isEmpty then apply gate target
  else
    let sorted ← Action.query (·.checkGate controls value target)
    modify fun reg => sorted.foldl (fun reg control => reg.settleUnlessDiagonal control.qubit) reg
    modify fun reg =>
      if gate.isDiagonal reg.threshold then reg.settleUnlessDiagonal target else reg.settle target
    modify fun reg => { reg with tree := reg.tree.apply gate sorted target }.afterChange

def applyControlled (controls : List Nat) (gate : Gate R) (target : Nat) : Action R Unit :=
  applyWhere controls true gate target

def applyAntiControlled (controls : List Nat) (gate : Gate R) (target : Nat) : Action R Unit :=
  applyWhere controls false gate target

/-! ## States -/

def setBasis (index : BasisIndex) (phase : Amplitude R) : Action R Unit := do
  Action.check (·.checkIndex index)
  modify fun reg =>
    { reg with
      pending := reg.pending.clear
      tree := .basis reg.width index phase reg.threshold }

def amplitude (index : BasisIndex) : Action R (Amplitude R) := do
  Action.check (·.checkIndex index)
  modify settleAll
  return (← get).tree.amplitude index

def amplitudes : Action R (Array (Amplitude R)) := do
  Action.check checkDense
  modify settleAll
  return (← get).tree.amplitudes

/-- The probabilities of all basis states, not divided by the norm. -/
def probabilities : Action R (Array R) := do
  return (← amplitudes).map Amplitude.normSq

def treeOf (reg : Register R) (amplitudes : Array (Amplitude R)) : Tree R :=
  .ofAmplitudes reg.width reg.threshold fun index => amplitudes[index]?.getD 0

/-- Replaces the state by the given amplitudes, which need not have norm one. -/
def setAmplitudes (amplitudes : Array (Amplitude R)) : Action R Unit := do
  Action.check checkDense
  let reg ← get
  let expected := 2 ^ reg.width
  if amplitudes.size != expected then throw (.lengthMismatch expected amplitudes.size)
  if amplitudes.all (Amplitude.negligible reg.threshold) then throw .zeroNorm
  set { reg with pending := reg.pending.clear, tree := reg.treeOf amplitudes }

/-- Brings the norm of the tree to one; waiting gates go on waiting. -/
def normalize : Action R Unit := do
  let reg ← get
  if Scalar.le reg.tree.normSq reg.threshold then throw .zeroNorm
  set { reg with tree := reg.tree.normalize reg.config.normalization }

def normSq (reg : Register R) : R := reg.tree.normSq

def branchCount : Action R Nat := do
  modify settleAll
  return (← get).tree.branchCount

def reduce : Action R Unit := modify fun reg => { reg with tree := reg.tree.reduce }

def stateCount (reg : Register R) : Nat := BasisIndex.power reg.width

def inner (a b : Array (Amplitude R)) : Amplitude R :=
  (a.zip b).foldl (fun total (x, y) => total + x.conj * y) 0

/-- One minus the squared modulus of the inner product with another register; one
if the widths differ. -/
def difference (other : Register R) : Action R (R × Register R) := do
  if (← get).width != other.width then return (1, other)
  let mine ← amplitudes
  let (theirs, other) := amplitudes.runOn other
  return (Scalar.maxOr (1 - (inner mine (← Action.ofExcept theirs)).normSq) 0, other)

end Register

end AmplitudeTree
