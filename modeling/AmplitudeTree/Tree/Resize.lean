import AmplitudeTree.NodeStore.Compare
import AmplitudeTree.Tree.Basic

/-!
# Adding and removing qubits

The qubits from `start` up to `start + length` are decided on the levels with these numbers.  The
nodes on level `start` are the hosts of the range.  To insert another tree, a copy of it is put in
place of every host, with the branches of the host below its leaves.  To remove a range, every host
is replaced by what lies below the range.
-/

namespace AmplitudeTree.Tree

variable {R : Type} [Scalar R]

def nextLevel (s : NodeStore R) (level : List NodeId) : List NodeId :=
  (level.flatMap fun id =>
    match (s.get id).branches with
    | none => []
    | some (low, high) => [low, high].filter fun child => !s.isZero child).eraseDups

def levelBelow (s : NodeStore R) : (steps : Nat) → (level : List NodeId) → List NodeId
  | 0, level => level
  | steps + 1, level => levelBelow s steps (nextLevel s level)

def hosts (t : Tree R) (depth : Nat) : List NodeId :=
  (levelBelow t.store depth [t.root]).filter fun id => !t.store.isZero id

def replaceVisit (s : NodeStore R) (level : Nat) (swap : Std.HashMap NodeId NodeId)
    (depth : Nat) (id : NodeId) : Visit (NodeStore R) NodeId :=
  let node := s.get id
  if depth == level then .answer fun s => (swap.getD id id, s)
  else
    match node.branches with
    | none => .answer fun s => (id, s)
    | some _ => .descend none none fun low high s => s.join node.scale low high

def replaceHosts (t : Tree R) (level : Nat) (swap : Std.HashMap NodeId NodeId) :
    NodeId × NodeStore R :=
  t.store.walkFrom 0 (replaceVisit t.store level swap) 0 t.root t.store

/-- How an inserted node is copied: a leaf of the inserted tree gets the branches `tail`. -/
def graftVisit (s : NodeStore R) (length : Nat) (tail : Option (NodeId × NodeId))
    (depth : Nat) (id : NodeId) : Visit (NodeStore R) NodeId :=
  let node := s.get id
  if depth == length then .answer fun s => s.push ⟨node.scale, tail⟩
  else
    match node.branches with
    | none => .answer fun s => s.push node
    | some _ => .descend none none fun low high s => s.push ⟨node.scale, some (low, high)⟩

/-- Appends a copy of the tree `inserted` in place of `host`, as it is in the store `source`. -/
def graft (source : NodeStore R) (length : Nat) (inserted : Node R) (low high : NodeId)
    (host : NodeId) (s : NodeStore R) : NodeId × NodeStore R :=
  let hostNode := source.get host
  let visit := graftVisit source length hostNode.branches
  let (low, progress) := source.walk 0 visit 1 low (.start s)
  let (high, ⟨s, _⟩) := source.walk 0 visit 1 high progress
  s.push ⟨hostNode.scale * inserted.scale, some (low, high)⟩

/-- The product state with the qubits of `other` put in from position `start` on. -/
def insert (t other : Tree R) (start : Nat) : Tree R :=
  let (top, ⟨store, _⟩) := t.store.copyFrom other.store other.root
  let t := { t with store := store }
  if store.isZero top || store.isZero t.root then
    { t with root := 0, width := t.width + other.width }
  else
    let inserted := store.get top
    match inserted.branches with
    | none =>
        let (root, store) := store.rescale t.root ((store.get t.root).scale * inserted.scale)
        { t with store := store, root := root }
    | some (low, high) =>
        let (swap, grown) := (t.hosts start).foldl
          (fun (swap, s) host =>
            let (copy, s) := graft store other.width inserted low high host s
            (swap.insert host copy, s))
          ((∅ : Std.HashMap NodeId NodeId), store)
        let t := { t with store := grown }
        let (root, store) := t.replaceHosts start swap
        { t with store := store, root := root, width := t.width + other.width }

/-- A range on its way into a tree of its own, and the node below it that fixes the
shape of all others. -/
structure Extraction (R : Type) where
  part : NodeStore R
  tail : Option NodeId

/-- How a node of the range is copied; not at all if the nodes below the range differ in shape. -/
def extractVisit (s : NodeStore R) (start stop : Nat) (depth : Nat) (id : NodeId) :
    Visit (Extraction R) (Option NodeId) :=
  let node := s.get id
  if depth == stop then
    .answer fun ⟨part, tail⟩ =>
      if tail.all fun first => s.sameShape first id then
        let (leaf, part) := part.push (.leaf node.scale)
        (some leaf, ⟨part, some (tail.getD id)⟩)
      else (none, ⟨part, tail⟩)
  else
    match node.branches with
    | none => .answer fun x => (none, x)
    | some _ => .descend none none fun low high ⟨part, tail⟩ =>
        match low, high with
        | some low, some high =>
            let (copy, part) :=
              part.push ⟨if depth == start then 1 else node.scale, some (low, high)⟩
            (some copy, ⟨part, tail⟩)
        | _, _ => (none, ⟨part, tail⟩)

structure Removal (R : Type) where
  /-- The store of the remaining tree. -/
  rest : NodeStore R
  /-- The store of the removed part. -/
  part : NodeStore R
  /-- The removed part, as found under the first host. -/
  root : Option NodeId
  /-- What every host is replaced by. -/
  swap : Std.HashMap NodeId NodeId

/-- Copies the range under one host and appends the host's replacement; fails if
the ranges differ. -/
def removeHost (source : NodeStore R) (start stop : Nat) (r : Removal R) (host : NodeId) :
    Bool × Removal R :=
  let ⟨rest, part, root, swap⟩ := r
  let (copy, ⟨part, tail⟩) :=
    source.walkFrom (some 0) (extractVisit source start stop) start host ⟨part, none⟩
  match copy with
  | none => (false, ⟨rest, part, root, swap⟩)
  | some copy =>
      if root.all fun first => part.agrees first copy then
        let branches := tail.bind fun id => (source.get id).branches
        let (replacement, rest) := rest.push ⟨(source.get host).scale, branches⟩
        (true, ⟨rest, part, some (root.getD copy), swap.insert host replacement⟩)
      else (false, ⟨rest, part, root, swap⟩)

def removeHosts (source : NodeStore R) (start stop : Nat) :
    List NodeId → Removal R → Bool × Removal R
  | [], r => (true, r)
  | host :: hosts, r =>
      match removeHost source start stop r host with
      | (true, r) => removeHosts source start stop hosts r
      | (false, r) => (false, r)

/-- Splits a range off into a tree of its own; without a result the range is entangled with the
other qubits. -/
def split (t : Tree R) (start length : Nat) : Option (Tree R) × Tree R :=
  if length == 0 then (some (basis 0 0 1 t.threshold), t)
  else
    let source := t.store
    let (separable, ⟨rest, part, root, swap⟩) :=
      removeHosts source start (start + length) (t.hosts start)
        ⟨source, .empty t.threshold, none, ∅⟩
    let kept := { t with store := rest }
    if !separable then (none, kept)
    else
      match root with
      | none => (some (basis length 0 1 t.threshold), { kept with width := t.width - length })
      | some root =>
          let (newRoot, store) := kept.replaceHosts start swap
          (some (ofStore part root length),
            { kept with store := store, root := newRoot, width := t.width - length })

/-- The node reached for the values of `levels` qubits from `qubit` on, and the product of the
scales on the way. -/
def followFrom (s : NodeStore R) (index : BasisIndex) :
    (levels : Nat) → (qubit : Nat) → NodeId → Amplitude R → NodeId × Amplitude R
  | 0, _, id, amplitude => (id, amplitude)
  | levels + 1, qubit, id, amplitude =>
      match s.branch? id (index.bit qubit) with
      | none => (0, amplitude)
      | some child =>
          if s.isZero child then (child, amplitude)
          else followFrom s index levels (qubit + 1) child (amplitude * (s.get child).scale)

def restrictHost (source : NodeStore R) (length : Nat) (index : BasisIndex) (host : NodeId)
    (s : NodeStore R) : NodeId × NodeStore R :=
  let (id, amplitude) := followFrom source index length 0 host 1
  if source.isZero id then (0, s)
  else s.push ⟨(source.get host).scale * amplitude, (source.get id).branches⟩

/-- Removes a range after projecting it onto a value; `false` and the old tree if the
value has no amplitude. -/
def restrict (t : Tree R) (start length : Nat) (index : BasisIndex) : Bool × Tree R :=
  let source := t.store
  let (swap, store) := (t.hosts start).foldl
    (fun (swap, s) host =>
      let (replacement, s) := restrictHost source length index host s
      (swap.insert host replacement, s))
    ((∅ : Std.HashMap NodeId NodeId), source)
  let t := { t with store := store }
  let (root, store) := t.replaceHosts start swap
  if store.isZero root then (false, { t with store := store })
  else (true, { t with store := store, root := root, width := t.width - length })

end AmplitudeTree.Tree
