import AmplitudeTree.NodeStore.Walk

/-!
# Reduction

Reducing a store keeps the nodes below one root and merges subtrees that agree.  Scales are sorted
into cells of a square grid as wide as the modulus that counts as zero, and only nodes with the same
branches in the same cell are compared.  So nothing that differs is merged, while two equal scales
on either side of a cell's edge stay apart.

`copyFrom` appends the nodes below a root of another store without merging any.
-/

namespace AmplitudeTree.NodeStore

variable {R : Type} [Scalar R]

/-- The branches of a node and the grid cell of its scale. -/
structure Cell where
  branches : Option (NodeId × NodeId)
  column : Int
  row : Int
deriving BEq, Hashable, DecidableEq

def Cell.limit : Int := 2 ^ 63

def Cell.coordinate (width x : R) : Int :=
  max (-limit) (min (limit - 1) (Scalar.round (x / width)))

def Cell.ofNode (width : R) (node : Node R) : Cell :=
  ⟨node.branches, coordinate width node.scale.re, coordinate width node.scale.im⟩

def Cell.width (threshold : R) : R :=
  Scalar.maxOr (Scalar.sqrt threshold) Scalar.machineEpsilon

/-- A store under construction, and for each cell the nodes that lie in it. -/
structure Reduction (R : Type) where
  store : NodeStore R
  cells : Std.HashMap Cell (List NodeId)

namespace Reduction

/-- The oldest stored node that agrees with `node`; `node` itself, appended, if there is none. -/
def merge (r : Reduction R) (node : Node R) : NodeId × Reduction R :=
  let cell := Cell.ofNode (Cell.width r.store.threshold) node
  let members := r.cells.getD cell []
  match members.find? fun m => r.store.negligible ((r.store.get m).scale - node.scale) with
  | some m => (m, r)
  | none =>
      let ⟨store, cells⟩ := r
      let (id, store) := store.push node
      (id, ⟨store, cells.insert cell (members ++ [id])⟩)

end Reduction

/-- A node over two zero branches becomes zero, any other is merged with a node
that agrees with it. -/
def reduceVisit (s : NodeStore R) (_depth : Nat) (id : NodeId) : Visit (Reduction R) NodeId :=
  let node := s.get id
  match node.branches with
  | none => .answer fun r => r.merge node
  | some _ => .descend none none fun low high r =>
      if low == 0 && high == 0 then (0, r) else r.merge ⟨node.scale, some (low, high)⟩

/-- A store with the nodes below `root` alone, subtrees that agree merged, and the new root. -/
def reduce (s : NodeStore R) (root : NodeId) : NodeStore R × NodeId :=
  let (root, r) := s.walkFrom 0 s.reduceVisit 0 root ⟨.empty s.threshold, ∅⟩
  (r.store, root)

/-- What copying does with a node: it is appended with its branches replaced by their copies. -/
def copyVisit (source : NodeStore R) (_depth : Nat) (id : NodeId) : Visit (NodeStore R) NodeId :=
  let node := source.get id
  match node.branches with
  | none => .answer fun s => s.push node
  | some _ => .descend none none fun low high s => s.push ⟨node.scale, some (low, high)⟩

/-- Appends the nodes below a root of another store; returns the copy of the root and
those of all nodes. -/
def copyFrom (s source : NodeStore R) (root : NodeId) :
    NodeId × Progress (NodeStore R) NodeId :=
  source.walk 0 source.copyVisit 0 root (.start s)

end AmplitudeTree.NodeStore
