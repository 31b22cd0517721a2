import AmplitudeTree.Gate
import AmplitudeTree.NodeStore.Compare
import AmplitudeTree.Tree.Basic

/-!
# Gates on a tree

A gate acts on the two subtrees of its target on every path that its controls select.  A control
above the target keeps the walk from the branch with the other value.  A control below the target
limits the mix of the two subtrees to the selected branches.
-/

namespace AmplitudeTree

/-- A qubit and the value that it must have for a controlled gate to act. -/
structure Control where
  qubit : Nat
  value : Bool

namespace NodeStore

variable {R : Type} [Scalar R]

/-- Mixes the subtrees `a` and `b` on level `depth`, over `levels` qubits, by a gate, where the
`controls` below have their values.  For subtrees of one shape the gate acts on the scales. -/
def mix (gate : Gate R) (levels depth : Nat) (controls : List Control) (a b : NodeId)
    (s : NodeStore R) : (NodeId × NodeId) × NodeStore R :=
  if s.isZero a && s.isZero b then ((0, 0), s)
  else if controls.isEmpty && (s.isZero a || s.isZero b || s.sameShape a b) then
    let shape := if s.isZero a then b else a
    let (zero, one) := gate.apply (s.scale a) (s.scale b)
    let (a, s) := s.rescale shape zero
    let (b, s) := s.rescale shape one
    ((a, b), s)
  else
    match levels with
    | 0 => ((a, b), s)
    | levels + 1 =>
        let ((aLow, aHigh), s) := s.cofactors a
        let ((bLow, bHigh), s) := s.cofactors b
        let mixLow (rest : List Control) (s : NodeStore R) :=
          mix gate levels (depth + 1) rest aLow bLow s
        let mixHigh (rest : List Control) (s : NodeStore R) :=
          mix gate levels (depth + 1) rest aHigh bHigh s
        let ((aLow, bLow), (aHigh, bHigh), s) :
            (NodeId × NodeId) × (NodeId × NodeId) × NodeStore R :=
          match controls with
          | ⟨qubit, value⟩ :: rest =>
              if qubit == depth then
                if value then
                  let (high, s) := mixHigh rest s
                  ((aLow, bLow), high, s)
                else
                  let (low, s) := mixLow rest s
                  (low, (aHigh, bHigh), s)
              else
                let (low, s) := mixLow controls s
                let (high, s) := mixHigh controls s
                (low, high, s)
          | [] =>
              let (low, s) := mixLow controls s
              let (high, s) := mixHigh controls s
              (low, high, s)
        let (a, s) := s.join 1 aLow aHigh
        let (b, s) := s.join 1 bLow bHigh
        ((a, b), s)

end NodeStore

namespace Tree

variable {R : Type} [Scalar R]

/-- On the target's level the branches are mixed; above it, the walk goes on where
the controls allow. -/
def applyVisit (t : Tree R) (gate : Gate R) (upper lower : List Control) (target : Nat)
    (depth : Nat) (id : NodeId) : Visit (NodeStore R) NodeId :=
  let node := t.store.get id
  match node.branches with
  | none => .answer fun s => (id, s)
  | some (low, high) =>
      if depth == target then
        .answer fun s =>
          let ((low, high), s) := s.mix gate (t.width - (depth + 1)) (depth + 1) lower low high
          s.join node.scale low high
      else
        let kept := upper.find? fun control => control.qubit == depth
        let keptLow := kept.bind fun control => if control.value then some low else none
        let keptHigh := kept.bind fun control => if control.value then none else some high
        .descend keptLow keptHigh fun newLow newHigh s =>
          if newLow == low && newHigh == high then (id, s) else s.join node.scale newLow newHigh

/-- The tree after a gate on `target` whose controls, in ascending order, have their values. -/
def apply (t : Tree R) (gate : Gate R) (controls : List Control) (target : Nat) : Tree R :=
  let upper := controls.takeWhile fun control => control.qubit < target
  let lower := controls.dropWhile fun control => control.qubit < target
  let (root, store) := t.store.walkFrom 0 (t.applyVisit gate upper lower target) 0 t.root t.store
  { t with store := store, root := root }

end Tree

end AmplitudeTree
