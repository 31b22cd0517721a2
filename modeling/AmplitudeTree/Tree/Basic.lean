import AmplitudeTree.BasisIndex
import AmplitudeTree.NodeStore.Reduce

/-!
# Decision trees of amplitudes

A tree decides qubit `q` on level `q`: the branches of the root select the value of qubit 0, and the
leaves lie below the last qubit.  The amplitude of a basis state is the product of the scales on its
path from the root to a leaf.  The operations keep nodes in canonical form, so that the norm and the
global phase of a state sit in the scale of the root.
-/

namespace AmplitudeTree

/-- A decision tree over a fixed number of qubits. -/
structure Tree (R : Type) where
  store : NodeStore R
  root : NodeId
  width : Nat
  /-- The size of the store when it was last reduced. -/
  reducedSize : Nat

namespace Tree

variable {R : Type} [Scalar R]

/-- The tree with the given root, taken to be reduced. -/
def ofStore (store : NodeStore R) (root : NodeId) (width : Nat) : Tree R :=
  ⟨store, root, width, store.size⟩

/-- Appends the path of a basis state from the leaf up to level 0; the topmost node
gets the scale `phase`. -/
def basisPath (index : BasisIndex) (phase : Amplitude R) :
    (levels : Nat) → (child : NodeId) → NodeStore R → NodeId × NodeStore R
  | 0, child, s => (child, s)
  | level + 1, child, s =>
      let branches := if index.bit level then (0, child) else (child, 0)
      let (parent, s) := s.push ⟨if level == 0 then phase else 1, some branches⟩
      basisPath index phase level parent s

def basis (width : Nat) (index : BasisIndex) (phase : Amplitude R) (threshold : R) : Tree R :=
  let (leaf, s) := (NodeStore.empty threshold).push (.leaf (if width == 0 then phase else 1))
  let (root, s) := basisPath index phase width leaf s
  ofStore s root width

def threshold (t : Tree R) : R := t.store.threshold

/-- The amplitude below a node over `levels` qubits from `qubit` on, times the scales so far. -/
def follow (s : NodeStore R) (index : BasisIndex) :
    (levels : Nat) → (qubit : Nat) → (id : NodeId) → (amplitude : Amplitude R) → Amplitude R
  | 0, _, _, amplitude => amplitude
  | levels + 1, qubit, id, amplitude =>
      match s.branch? id (index.bit qubit) with
      | none => 0
      | some child =>
          if s.isZero child then 0
          else follow s index levels (qubit + 1) child (amplitude * (s.get child).scale)

def amplitude (t : Tree R) (index : BasisIndex) : Amplitude R :=
  if t.store.isZero t.root then 0
  else follow t.store index t.width 0 t.root (t.store.get t.root).scale

def amplitudes (t : Tree R) : Array (Amplitude R) :=
  Array.ofFn fun index : Fin (2 ^ t.width) => t.amplitude index

def branchCount (t : Tree R) : Nat := t.store.countReachable t.root

/-- The weight of a leaf is one, that of a node sums up those of its branches times
their squared scales. -/
def weightVisit (s : NodeStore R) (_depth : Nat) (id : NodeId) : Visit Unit R :=
  match (s.get id).branches with
  | none => .answer fun _ => (1, ())
  | some (low, high) => .descend none none fun lowWeight highWeight _ =>
      (s.weight low * lowWeight + s.weight high * highWeight, ())

/-- The squared norms of the subtrees below the root, without the scales of their topmost nodes. -/
def subtreeWeights (t : Tree R) : Std.HashMap NodeId R :=
  (t.store.walk 0 (weightVisit t.store) 0 t.root (.start ())).2.finished

def normSq (t : Tree R) : R :=
  t.store.weight t.root * (t.subtreeWeights.getD t.root 0)

/-- The tree with subtrees that agree merged and everything else dropped. -/
def reduce (t : Tree R) : Tree R :=
  let (store, root) := t.store.reduce t.root
  ofStore store root t.width

/-- How many times the reduced size a store may grow to. -/
def bloatFactor : Nat := 8

/-- The least reduced size that counts for the growth of a store. -/
def bloatFloor : Nat := 64

/-- The reduced tree, once the store has clearly outgrown its last reduced size. -/
def reduceIfBloated (t : Tree R) : Tree R :=
  if bloatFactor * max t.reducedSize bloatFloor < t.store.size then t.reduce else t

/-- How a node gets its canonical form: leaves keep theirs, other nodes are joined anew. -/
def canonicalVisit (s : NodeStore R) (_depth : Nat) (id : NodeId) : Visit (NodeStore R) NodeId :=
  let node := s.get id
  match node.branches with
  | none => .answer fun s => (id, s)
  | some _ => .descend none none fun low high s => s.join node.scale low high

def canonicalize (t : Tree R) : Tree R :=
  let (root, store) := t.store.walkFrom 0 (canonicalVisit t.store) 0 t.root t.store
  { t with store := store, root := root }

/-- A node is joined anew if the squared scales of its branches miss one by
more than `tolerance`. -/
def normalizeVisit (s : NodeStore R) (tolerance : R) (_depth : Nat) (id : NodeId) :
    Visit (NodeStore R) NodeId :=
  let node := s.get id
  match node.branches with
  | none => .answer fun s => (id, s)
  | some branches => .descend none none fun low high s =>
      if Scalar.lt tolerance (Scalar.abs (s.weight low + s.weight high - 1)) then
        s.join node.scale low high
      else if low == branches.1 && high == branches.2 then (id, s)
      else s.push ⟨node.scale, some (low, high)⟩

def withUnitRoot (t : Tree R) : Tree R :=
  let scale := (t.store.get t.root).scale
  let (root, store) := t.store.rescale t.root (scale.dividedBy scale.norm)
  { t with store := store, root := root }

/-- The tree of the same state with norm one. -/
def normalize (t : Tree R) (tolerance : R) : Tree R :=
  let (root, store) := t.store.walkFrom 0 (normalizeVisit t.store tolerance) 0 t.root t.store
  let t := { t with store := store, root := root }
  if t.store.isZero t.root then t else t.withUnitRoot

end Tree

end AmplitudeTree
