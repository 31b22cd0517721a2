import AmplitudeTree.NodeStore.Basic
import Std.Data.HashSet

/-!
# Comparing subtrees

Two subtrees agree if their scales differ by a negligible amount and they have the same shape; they
have the same shape if both are leaves or their branches agree.  `unfoldedSameShape` is this
definition; `sameShape` answers the same question while it remembers the pairs of shared nodes that
it has already found to match.
-/

namespace AmplitudeTree.NodeStore

variable {R : Type} [Scalar R]

/-- Whether two subtrees have the same shape, by comparison of all paths. -/
def unfoldedSameShape (s : NodeStore R) (a b : NodeId) : Bool :=
  match s.children a, s.children b with
  | none, none => true
  | some ⟨aLow, aHigh, _, _⟩, some ⟨bLow, bHigh, _, _⟩ =>
      let agree (x y : NodeId) (shape : Bool) : Bool :=
        match s.isZero x, s.isZero y with
        | true, true => true
        | false, false => s.negligible ((s.get x).scale - (s.get y).scale) && shape
        | _, _ => false
      agree aLow bLow (unfoldedSameShape s aLow bLow) &&
        agree aHigh bHigh (unfoldedSameShape s aHigh bHigh)
  | _, _ => false
termination_by a

def unfoldedAgrees (s : NodeStore R) (a b : NodeId) : Bool :=
  match s.isZero a, s.isZero b with
  | true, true => true
  | false, false =>
      s.negligible ((s.get a).scale - (s.get b).scale) && s.unfoldedSameShape a b
  | _, _ => false

/-- The pairs of nodes that are known to have the same shape. -/
abbrev Proven := Std.HashSet (NodeId × NodeId)

/-- Whether two subtrees agree, where `shape` compares their shapes. -/
def agreesBy (s : NodeStore R) (a b : NodeId) (shape : Proven → Bool × Proven)
    (proven : Proven) : Bool × Proven :=
  match s.isZero a, s.isZero b with
  | true, true => (true, proven)
  | false, false =>
      if s.negligible ((s.get a).scale - (s.get b).scale) then shape proven else (false, proven)
  | _, _ => (false, proven)

/-- Whether two subtrees have the same shape, and the pairs that are then known to. -/
def sameShapeFrom (s : NodeStore R) (a b : NodeId) (proven : Proven) : Bool × Proven :=
  if a == b || proven.contains (a, b) then (true, proven)
  else
    let (found, proven) :=
      match s.children a, s.children b with
      | none, none => (true, proven)
      | some ⟨aLow, aHigh, _, _⟩, some ⟨bLow, bHigh, _, _⟩ =>
          let (lowAgrees, proven) :=
            s.agreesBy aLow bLow (fun p => sameShapeFrom s aLow bLow p) proven
          if lowAgrees then s.agreesBy aHigh bHigh (fun p => sameShapeFrom s aHigh bHigh p) proven
          else (false, proven)
      | _, _ => (false, proven)
    (found, if found then proven.insert (a, b) else proven)
termination_by a

def sameShape (s : NodeStore R) (a b : NodeId) : Bool := (s.sameShapeFrom a b ∅).1

def agrees (s : NodeStore R) (a b : NodeId) : Bool :=
  (s.agreesBy a b (s.sameShapeFrom a b) ∅).1

end AmplitudeTree.NodeStore
