import AmplitudeTree.Tree.Basic

/-!
# Trees from amplitude lists

A tree is built from the amplitudes of all basis states in three steps: the amplitudes are stored in
a staging tree, the staging tree becomes the nodes of a store, and these are brought into canonical
form and reduced.

The slots of a staging tree are handed out in pairs, when an amplitude first needs a branch.  So the
slot of a branch depends on the order in which amplitudes are stored; the store built in the end
does not.
-/

namespace AmplitudeTree

/-- The slot of a node's branch for 0, next to that for 1, and the amplitude of a leaf. -/
structure StagedNode (R : Type) where
  branches : Option Nat
  amplitude : Option (Amplitude R)

/-- A tree with all branches in one array of slots; slot 0 is the root. -/
structure StagingTree (R : Type) where
  slots : Array (StagedNode R)
  /-- The first slot that no branch uses. -/
  next : Nat

namespace StagingTree

variable {R : Type} [Scalar R]

def capacity (width : Nat) : Nat := 2 ^ (width + 1) - 1

def empty (width : Nat) : StagingTree R := ⟨.replicate (capacity width) ⟨none, none⟩, 1⟩

/-- The slot of a node's branch for 0.  The two branches get fresh slots if they have none yet. -/
def branch (t : StagingTree R) (slot : Nat) : Nat × StagingTree R :=
  match t.slots[slot]?.bind (·.branches) with
  | some first => (first, t)
  | none =>
      let ⟨slots, next⟩ := t
      (next, ⟨slots.modify slot fun node => { node with branches := some next }, next + 2⟩)

/-- The slot of a basis state's leaf: `levels` qubits are left, of which the first is `qubit`. -/
def descend (index : BasisIndex) :
    (levels : Nat) → (qubit : Nat) → (slot : Nat) → StagingTree R → Nat × StagingTree R
  | 0, _, slot, t => (slot, t)
  | levels + 1, qubit, slot, t =>
      let (first, t) := t.branch slot
      descend index levels (qubit + 1) (if index.bit qubit then first + 1 else first) t

/-- Stores the amplitude of a basis state in its leaf, unless the leaf has one. -/
def insert (t : StagingTree R) (width : Nat) (index : BasisIndex) (amplitude : Amplitude R) :
    StagingTree R :=
  let (slot, ⟨slots, next⟩) := descend index width 0 0 t
  ⟨slots.modify slot fun node =>
    { node with amplitude := node.amplitude.or (some amplitude) }, next⟩

/-- Stores the amplitudes of basis states in the given order; an amplitude that is exactly zero
takes no slot. -/
def insertAll (t : StagingTree R) (width : Nat) (source : BasisIndex → Amplitude R)
    (order : List BasisIndex) : StagingTree R :=
  order.foldl (fun t index =>
    let amplitude := source index
    if Scalar.lt 0 amplitude.normSq then t.insert width index amplitude else t) t

/-- Appends the nodes of a staged subtree over `levels` qubits; one without an amplitude becomes the
zero node. -/
def build (t : StagingTree R) : (levels : Nat) → (slot : Nat) → NodeStore R → NodeId × NodeStore R
  | 0, slot, s =>
      match t.slots[slot]?.bind (·.amplitude) with
      | some amplitude => s.push (.leaf amplitude)
      | none => (0, s)
  | levels + 1, slot, s =>
      match t.slots[slot]?.bind (·.branches) with
      | none => (0, s)
      | some first =>
          let (low, s) := t.build levels first s
          let (high, s) := t.build levels (first + 1) s
          if low == 0 && high == 0 then (0, s) else s.push ⟨1, some (low, high)⟩

end StagingTree

namespace Tree

variable {R : Type} [Scalar R]

/-- The tree of staged amplitudes, neither canonical nor reduced. -/
def ofStaged (width : Nat) (threshold : R) (staged : StagingTree R) : Tree R :=
  let (root, store) := staged.build width 0 (.empty threshold)
  ofStore store root width

def ofAmplitudes (width : Nat) (threshold : R) (source : BasisIndex → Amplitude R) : Tree R :=
  let staged := (StagingTree.empty width).insertAll width source (List.range (2 ^ width))
  (ofStaged width threshold staged).canonicalize.reduce

end Tree

end AmplitudeTree
