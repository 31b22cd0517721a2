import AmplitudeTree.Amplitude

/-!
# Node stores

A node store holds the nodes of a decision tree over qubits.  Nodes are only ever appended, so a
subtree can be shared by several parents and by earlier versions of a tree.  Position 0 holds the
zero node, which stands for a subtree without amplitude; so does every node whose scale is
negligible.

A node whose squared child scales sum to one, with the first child that is not zero on the positive
real axis, is in canonical form.  `join` builds such nodes.
-/

namespace AmplitudeTree

abbrev NodeId := Nat

/-- One node of a decision tree; without branches it is a leaf, or the zero node. -/
structure Node (R : Type) where
  scale : Amplitude R
  branches : Option (NodeId × NodeId)

namespace Node

variable {R : Type} [Scalar R]

def leaf (scale : Amplitude R) : Node R := ⟨scale, none⟩

end Node

/-- The nodes of a decision tree, and the squared modulus up to which a scale counts as zero. -/
structure NodeStore (R : Type) where
  nodes : Array (Node R)
  threshold : R

namespace NodeStore

variable {R : Type} [Scalar R]

def empty (threshold : R) : NodeStore R := ⟨#[Node.leaf 0], threshold⟩

/-- The number of stored nodes, whether anything refers to them or not. -/
def size (s : NodeStore R) : Nat := s.nodes.size

def isEmpty (s : NodeStore R) : Bool := s.size == 1

def get (s : NodeStore R) (id : NodeId) : Node R := s.nodes[id]?.getD (Node.leaf 0)

def push (s : NodeStore R) (node : Node R) : NodeId × NodeStore R :=
  (s.nodes.size, { s with nodes := s.nodes.push node })

def negligible (s : NodeStore R) (a : Amplitude R) : Bool := a.negligible s.threshold

def isZero (s : NodeStore R) (id : NodeId) : Bool := id == 0 || s.negligible (s.get id).scale

def scale (s : NodeStore R) (id : NodeId) : Amplitude R :=
  if s.isZero id then 0 else (s.get id).scale

def weight (s : NodeStore R) (id : NodeId) : R := (s.scale id).normSq

/-- The branches of the node `id`, which are stored before it, so that every walk ends. -/
structure Children (id : NodeId) where
  low : NodeId
  high : NodeId
  low_lt : low < id
  high_lt : high < id

def children (s : NodeStore R) (id : NodeId) : Option (Children id) :=
  match (s.get id).branches with
  | some (low, high) =>
      if h : low < id ∧ high < id then some ⟨low, high, h.1, h.2⟩ else none
  | none => none

def branch? (s : NodeStore R) (id : NodeId) (value : Bool) : Option NodeId :=
  (s.get id).branches.map fun c => if value then c.2 else c.1

/-- A node like the one at `id` with another scale: the node itself when it has that scale. -/
def rescale (s : NodeStore R) (id : NodeId) (scale : Amplitude R) : NodeId × NodeStore R :=
  if s.negligible scale then (0, s)
  else
    let node := s.get id
    if node.scale.same scale then (id, s) else s.push ⟨scale, node.branches⟩

/-- The two branches of a node with its scale multiplied into them. -/
def cofactors (s : NodeStore R) (id : NodeId) : (NodeId × NodeId) × NodeStore R :=
  if s.isZero id then ((0, 0), s)
  else
    let node := s.get id
    match node.branches with
    | none => ((0, 0), s)
    | some (low, high) =>
        let lowScale := node.scale * s.scale low
        let highScale := node.scale * s.scale high
        let (low, s) := s.rescale low lowScale
        let (high, s) := s.rescale high highScale
        ((low, high), s)

/-- The branch `id` with its scale divided by `factor`, where `scale` is its scale; zero when that
is negligible. -/
def divideScale (s : NodeStore R) (id : NodeId) (scale factor : Amplitude R) :
    NodeId × NodeStore R :=
  if s.negligible scale then (0, s) else s.rescale id (scale / factor)

/-- The canonical node over the given branches, whose common modulus and first phase
move into its scale. -/
def join (s : NodeStore R) (scale : Amplitude R) (low high : NodeId) : NodeId × NodeStore R :=
  let lowScale := s.scale low
  let highScale := s.scale high
  let total := lowScale.normSq + highScale.normSq
  if Scalar.le total s.threshold then (0, s)
  else
    let leading := if s.negligible lowScale then highScale else lowScale
    let factor := Amplitude.ofPolar (Scalar.sqrt total) leading.angle
    let scale := scale * factor
    if s.negligible scale then (0, s)
    else
      let (low, s) := s.divideScale low lowScale factor
      let (high, s) := s.divideScale high highScale factor
      s.push ⟨scale, some (low, high)⟩

end NodeStore

end AmplitudeTree
