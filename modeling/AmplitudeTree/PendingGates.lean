import AmplitudeTree.Tree.Apply

/-!
# Pending gates

A gate on a single qubit need not reach the tree at once.  Each qubit has a slot that holds the
product of the gates waiting for it.
-/

namespace AmplitudeTree

/-- One slot for each qubit of a register. -/
structure PendingGates (R : Type) where
  slots : List (Option (Gate R))

namespace PendingGates

variable {R : Type} [Scalar R]

def empty (width : Nat) : PendingGates R := ⟨List.replicate width none⟩

def width (p : PendingGates R) : Nat := p.slots.length

def get? (p : PendingGates R) (qubit : Nat) : Option (Gate R) := p.slots[qubit]?.join

def any (p : PendingGates R) : Bool := p.slots.any Option.isSome

/-- Appends a gate to those waiting on a qubit; a product close to the identity frees the slot. -/
def append (p : PendingGates R) (qubit : Nat) (gate : Gate R) (threshold : R) : PendingGates R :=
  let product :=
    match p.get? qubit with
    | some waiting => waiting.followedBy threshold gate
    | none => gate
  ⟨p.slots.set qubit (if product.isIdentity threshold then none else some product)⟩

def erase (p : PendingGates R) (qubit : Nat) : PendingGates R := ⟨p.slots.set qubit none⟩

def clear (p : PendingGates R) : PendingGates R := ⟨p.slots.map fun _ => none⟩

def insert (p : PendingGates R) (start : Nat) (other : PendingGates R) : PendingGates R :=
  ⟨p.slots.take start ++ other.slots ++ p.slots.drop start⟩

def split (p : PendingGates R) (start length : Nat) : PendingGates R × PendingGates R :=
  (⟨(p.slots.drop start).take length⟩,
   ⟨p.slots.take start ++ p.slots.drop (start + length)⟩)

def append? (p : PendingGates R) (qubit : Nat) (gate : Gate R) (threshold : R) :
    Option (PendingGates R) :=
  if qubit < p.width then some (p.append qubit gate threshold) else none

def take? (p : PendingGates R) (qubit : Nat) : Option (Option (Gate R) × PendingGates R) :=
  if qubit < p.width then some (p.get? qubit, p.erase qubit) else none

def insert? (p : PendingGates R) (start : Nat) (other : PendingGates R) :
    Option (PendingGates R) :=
  if start ≤ p.width then some (p.insert start other) else none

def split? (p : PendingGates R) (start length : Nat) :
    Option (PendingGates R × PendingGates R) :=
  if start + length ≤ p.width then some (p.split start length) else none

end PendingGates

namespace Tree

variable {R : Type} [Scalar R]

def settle (t : Tree R) (gate : Gate R) (qubit : Nat) : Tree R :=
  (t.apply gate [] qubit).reduceIfBloated

end Tree

end AmplitudeTree
