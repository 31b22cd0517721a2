import AmplitudeTree.Tree.Basic

/-!
# Measuring a tree

Probabilities, sampling and collapse.  Probabilities are relative to the norm of the state.
-/

namespace AmplitudeTree.Tree

variable {R : Type} [Scalar R]

/-- Adds to a level's mass the share of one node, branch by branch. -/
def spreadMass (s : NodeStore R) (level : Std.HashMap NodeId R) (id : NodeId) (mass : R) :
    Std.HashMap NodeId R :=
  match (s.get id).branches with
  | none => level
  | some (low, high) =>
      [low, high].foldl
        (fun level child =>
          if s.isZero child then level
          else level.insert child (level.getD child 0 + mass * (s.get child).scale.normSq))
        level

/-- The probability mass that reaches each node, `steps` levels below the given ones. -/
def massBelow (s : NodeStore R) : (steps : Nat) → Std.HashMap NodeId R → Std.HashMap NodeId R
  | 0, level => level
  | steps + 1, level => massBelow s steps (level.fold (spreadMass s) ∅)

def splitMass (s : NodeStore R) (weights : Std.HashMap NodeId R) (masses : R × R) (id : NodeId)
    (mass : R) : R × R :=
  match (s.get id).branches with
  | none => masses
  | some (low, high) =>
      (masses.1 + mass * s.weight low * weights.getD low 0,
       masses.2 + mass * s.weight high * weights.getD high 0)

/-- The probability that a qubit reads 1; zero for a state without norm. -/
def prob (t : Tree R) (qubit : Nat) : R :=
  let s := t.store
  if s.isZero t.root then 0
  else
    let weights := t.subtreeWeights
    let top := (∅ : Std.HashMap NodeId R).insert t.root (s.get t.root).scale.normSq
    let (zero, one) := (massBelow s qubit top).fold (splitMass s weights) (0, 0)
    let total := zero + one
    if Scalar.le total 0 then 0 else Scalar.clampUnit (one / total)

/-- Draws the values of `levels` qubits from `qubit` on, one number each, until
no amplitude is left. -/
def sampleFrom {γ : Type} (s : NodeStore R) (weights : Std.HashMap NodeId R) (draw : γ → R × γ) :
    (levels : Nat) → (qubit : Nat) → NodeId → BasisIndex → γ → BasisIndex × γ
  | 0, _, _, index, source => (index, source)
  | levels + 1, qubit, id, index, source =>
      if s.isZero id then (index, source)
      else
        match (s.get id).branches with
        | none => (index, source)
        | some (low, high) =>
            let lowMass := s.weight low * weights.getD low 0
            let highMass := s.weight high * weights.getD high 0
            let total := lowMass + highMass
            if Scalar.le total 0 then (index, source)
            else
              let (r, source) := draw source
              if Scalar.lt (r * total) highMass then
                sampleFrom s weights draw levels (qubit + 1) high (index ||| .power qubit) source
              else sampleFrom s weights draw levels (qubit + 1) low index source

def sample {γ : Type} (t : Tree R) (draw : γ → R × γ) (source : γ) : BasisIndex × γ :=
  sampleFrom t.store t.subtreeWeights draw t.width 0 t.root 0 source

/-- On the qubit's level the branch for the other value is cut, above it nodes are joined anew. -/
def collapseVisit (s : NodeStore R) (qubit : Nat) (value : Bool) (depth : Nat) (id : NodeId) :
    Visit (NodeStore R) NodeId :=
  let node := s.get id
  match node.branches with
  | none => .answer fun s => (id, s)
  | some (low, high) =>
      if depth == qubit then
        .answer fun s => if value then s.join node.scale 0 high else s.join node.scale low 0
      else .descend none none fun low high s => s.join node.scale low high

/-- The part of the state where a qubit has a value, with norm one; `false` and the old tree if
there is none. -/
def collapse (t : Tree R) (qubit : Nat) (value : Bool) : Bool × Tree R :=
  let (root, store) := t.store.walkFrom 0 (collapseVisit t.store qubit value) 0 t.root t.store
  let t := { t with store := store }
  if store.isZero root then (false, t) else (true, { t with root := root }.withUnitRoot)

end AmplitudeTree.Tree
