import AmplitudeTree.Register.Basic

/-!
# State vectors of a register

An operation without an algorithm on trees runs on a state vector: the register's amplitudes are
listed, the operation acts on them, and a new tree is built from the result.
-/

namespace AmplitudeTree.Register

variable {R α : Type} [Scalar R]

def toVector (required : List OperatorSet) : Action R (StateVector R) := do
  Action.check (·.checkOperators required)
  Action.check checkDense
  modify settleAll
  let seed ← modifyGet fun reg =>
    let (seed, generator) := reg.generator.word
    (seed, { reg with generator := generator })
  let reg ← get
  Action.ofExcept <| Except.mapError .vector do
    let v ← reg.factory.create reg.width seed
    v.setAmplitudes reg.tree.amplitudes

/-- Runs an operation on the register's state vector without writing anything back. -/
def inspectVector (required : List OperatorSet) (op : StateVector R → Except VectorError α) :
    Action R α := do
  let v ← toVector required
  Action.ofExcept ((op v).mapError .vector)

/-- Replaces the state by the result of an operation on its state vector, unless the operation fails
or leaves nothing. -/
def withVector (required : List OperatorSet)
    (op : StateVector R → Except VectorError (α × StateVector R)) : Action R α := do
  let v ← toVector required
  let (result, v) ← Action.ofExcept ((op v).mapError .vector)
  let reg ← get
  if v.amplitudes.all (Amplitude.negligible reg.threshold) then throw .zeroNorm
  set { reg with tree := reg.treeOf v.amplitudes }.afterChange
  return result

def setAmplitude (index : BasisIndex) (a : Amplitude R) : Action R Unit := do
  Action.check (·.checkIndex index)
  let index ← Action.query fun reg => (index.checkWord reg.width).mapError .indexOutOfRange
  withVector [] fun v => do
    return ((), ← v.setAmplitude index a)

end AmplitudeTree.Register
