import AmplitudeTree.NodeStore.Basic
import Std.Data.HashMap

/-!
# Walks over shared nodes

A walk computes a value for a node from the values for its branches.  It visits a shared node once
and remembers the value.  A walk may carry a state along, such as a store that it appends to; it
reads the nodes it visits from the store that it started on.

`listing` numbers the nodes below a root in the order in which a walk first meets them.
-/

namespace AmplitudeTree

/-- What a walk does with a node: it answers at once, or combines the values for the branches that
are not given. -/
inductive Visit (σ β : Type) where
  | answer (result : σ → β × σ)
  | descend (low high : Option β) (combine : β → β → σ → β × σ)

/-- The state that a walk carries along, and the values of the nodes it has finished. -/
structure Progress (σ β : Type) where
  state : σ
  finished : Std.HashMap NodeId β

namespace Progress

def start {σ β : Type} (state : σ) : Progress σ β := ⟨state, ∅⟩

end Progress

namespace NodeStore

variable {R σ β : Type} [Scalar R]

/-- The value of a node on level `depth`, found by `visit`, or `zero` if it has no amplitude. -/
def walk (s : NodeStore R) (zero : β) (visit : Nat → NodeId → Visit σ β) (depth : Nat)
    (id : NodeId) (progress : Progress σ β) : β × Progress σ β :=
  if s.isZero id then (zero, progress)
  else
    match progress.finished[id]? with
    | some value => (value, progress)
    | none =>
        let (value, ⟨state, finished⟩) : β × Progress σ β :=
          match visit depth id, s.children id with
          | .answer result, _ =>
              let ⟨state, finished⟩ := progress
              let (value, state) := result state
              (value, ⟨state, finished⟩)
          | .descend low high combine, some ⟨lowId, highId, _, _⟩ =>
              let (lowValue, progress) :=
                match low with
                | some value => (value, progress)
                | none => walk s zero visit (depth + 1) lowId progress
              let (highValue, ⟨state, finished⟩) :=
                match high with
                | some value => (value, progress)
                | none => walk s zero visit (depth + 1) highId progress
              let (value, state) := combine lowValue highValue state
              (value, ⟨state, finished⟩)
          | .descend .., none => (zero, progress)
        (value, ⟨state, finished.insert id value⟩)
termination_by id

def walkFrom (s : NodeStore R) (zero : β) (visit : Nat → NodeId → Visit σ β) (depth : Nat)
    (id : NodeId) (state : σ) : β × σ :=
  let (value, ⟨state, _⟩) := s.walk zero visit depth id (.start state)
  (value, state)

/-- The nodes met so far, in the order of their first visit, and the number of each. -/
structure Listing where
  order : Array NodeId
  number : Std.HashMap NodeId Nat

/-- Lists the nodes below `id`, each before its branches and the branch for 0 first. -/
def list (s : NodeStore R) (id : NodeId) (seen : Listing) : Listing :=
  if s.isZero id || seen.number.contains id then seen
  else
    let ⟨order, number⟩ := seen
    let seen : Listing := ⟨order.push id, number.insert id order.size⟩
    match s.children id with
    | none => seen
    | some ⟨low, high, _, _⟩ => list s high (list s low seen)
termination_by id

def listing (s : NodeStore R) (root : NodeId) : Listing := s.list root ⟨#[], ∅⟩

/-- The number of distinct nodes below a root that are not zero. -/
def countReachable (s : NodeStore R) (root : NodeId) : Nat := (s.listing root).order.size

end NodeStore

end AmplitudeTree
