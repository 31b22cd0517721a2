import AmplitudeTree.Register.Basic
import AmplitudeTree.Tree.Resize

/-!
# Adding and removing qubits

Waiting gates move along with their qubits.
-/

namespace AmplitudeTree.Register

variable {R : Type} [Scalar R]

/-- Puts the qubits of another register into this one from position `start` on. -/
def compose (other : Register R) (start : Nat) : Action R Nat := do
  let reg ← get
  if reg.width < start then throw (.qubitOutOfRange start reg.width)
  let total := reg.width + other.width
  if BasisIndex.maxWidth < total then throw (.tooManyQubits total BasisIndex.maxWidth)
  set { reg with
    tree := reg.tree.insert other.tree start
    pending := reg.pending.insert start other.pending }.afterChange
  return start

def composeEnd (other : Register R) : Action R Nat := do
  compose other (← get).width

def splitTree (range : QubitRange) : Action R (Tree R) := do
  let part? ← modifyGet fun reg =>
    let (part?, tree) := reg.tree.split range.start range.length
    (part?, { reg with tree := tree })
  match part? with
  | some part => return part
  | none => throw (.notSeparable range)

def splitPending (range : QubitRange) : Action R (PendingGates R) :=
  modifyGet fun reg =>
    let (part, rest) := reg.pending.split range.start range.length
    (part, { reg with pending := rest })

/-- Moves as many qubits as another register has into that register, and returns it. -/
def decomposeInto (start : Nat) (other : Register R) : Action R (Register R) := do
  let range : QubitRange := ⟨start, other.width⟩
  Action.check (·.checkRange range)
  let tree ← splitTree range
  let pending ← splitPending range
  modify afterChange
  return { other with tree := tree, pending := pending }.afterChange

/-- An empty register with the settings of this one and a seed drawn from its generator. -/
def sibling (width : Nat) : Action R (Register R) :=
  modifyGet fun reg =>
    let (seed, generator) := reg.generator.word
    ({ reg with
        tree := .basis width 0 1 reg.threshold
        pending := .empty width
        generator := .ofSeed seed },
      { reg with generator := generator })

def decompose (range : QubitRange) : Action R (Register R) := do
  Action.check (·.checkRange range)
  let other ← sibling range.length
  decomposeInto range.start other

/-- Drops a range of qubits, which must not be entangled with the others. -/
def dispose (range : QubitRange) : Action R Unit := do
  Action.check (·.checkRange range)
  let _ ← splitTree range
  let _ ← splitPending range
  modify afterChange

def disposeAt (range : QubitRange) (value : BasisIndex) : Action R Unit := do
  Action.check (·.checkRange range)
  Action.check fun _ => (value.check range.length).mapError .indexOutOfRange
  modify fun reg => (List.range' range.start range.length).foldl settle reg
  let kept ← modifyGet fun reg =>
    let (kept, tree) := reg.tree.restrict range.start range.length value
    (kept, { reg with tree := tree })
  if !kept then throw (.impossibleOutcome range.start)
  let _ ← splitPending range
  modify fun reg => { reg with tree := reg.tree.normalize reg.config.normalization }.afterChange

def allocate (start length : Nat) : Action R Nat := do
  let reg ← get
  if reg.width < start then throw (.qubitOutOfRange start reg.width)
  if length == 0 then return start
  set { reg with
    tree := reg.tree.insert (.basis length 0 1 reg.threshold) start
    pending := reg.pending.insert start (.empty length) }.afterChange
  return start

end AmplitudeTree.Register
