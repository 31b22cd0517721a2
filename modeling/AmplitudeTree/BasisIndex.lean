import AmplitudeTree.Power

/-!
# Basis indices

A basis state of a register is addressed by a number whose bit `q` is the value of qubit `q`.  An
index has at most 128 bits.  A range of neighbouring qubits is read as an unsigned number with its
lowest bit on the first qubit of the range.
-/

namespace AmplitudeTree

abbrev BasisIndex := Nat

structure IndexError where
  index : BasisIndex
  width : Nat

namespace IndexError

def message (e : IndexError) : String :=
  s!"Permutation {e.index} out of range for a {e.width}-qubit register"

end IndexError

namespace BasisIndex

/-- The number of qubits that an index can address. -/
def maxWidth : Nat := 128

/-- The number of bits of a machine word, which addresses an array of amplitudes. -/
def wordBits : Nat := 64

/-- The index with only qubit `qubit` set. -/
def power (qubit : Nat) : BasisIndex := 2 ^ qubit

/-- The index with the lowest `length` qubits set, at most all of the addressable ones. -/
def lowMask (length : Nat) : BasisIndex := 2 ^ min length maxWidth - 1

/-- The lowest `length` bits of an index; the power is not needed if it has no more. -/
def lowBits (index : BasisIndex) (length : Nat) : Nat :=
  if Nat.log2 index < length then index else index % 2 ^ length

theorem lowBits_eq_mod (index : BasisIndex) (length : Nat) :
    lowBits index length = index % 2 ^ length := by
  unfold lowBits
  split
  case isTrue short =>
    rcases Nat.eq_zero_or_pos index with rfl | positive
    · exact (Nat.zero_mod _).symm
    · exact (Nat.mod_eq_of_lt ((Nat.log2_lt (by omega)).mp short)).symm
  case isFalse => rfl

def bit (index : BasisIndex) (qubit : Nat) : Bool := Nat.testBit index qubit

/-- The highest qubit that is set, zero if there is none. -/
def highestSet (index : BasisIndex) : Nat := Nat.log2 index

def isPower (index : BasisIndex) : Bool := index != 0 && index == 2 ^ Nat.log2 index

def clear (index mask : BasisIndex) : BasisIndex := index ^^^ (index &&& mask)

def hasAll (index mask : BasisIndex) : Bool := index &&& mask == mask

def oddParity (index : BasisIndex) : Bool :=
  if h : index = 0 then false
  else
    have : index / 2 < index := Nat.div_lt_self (Nat.pos_of_ne_zero h) (by decide)
    (index % 2 == 1) ^^ oddParity (index / 2)
termination_by index

def check (index : BasisIndex) (width : Nat) : Except IndexError Unit :=
  if width < maxWidth && 2 ^ width ≤ index then .error ⟨index, width⟩ else .ok ()

def checkWord (index : BasisIndex) (width : Nat) : Except IndexError Nat :=
  if index < 2 ^ wordBits then .ok index else .error ⟨index, width⟩

end BasisIndex

/-- The qubits from `start` up to, but not including, `start + length`. -/
structure QubitRange where
  start : Nat
  length : Nat

namespace QubitRange

def single (qubit : Nat) : QubitRange := ⟨qubit, 1⟩

def stop (r : QubitRange) : Nat := r.start + r.length

def contains (r : QubitRange) (qubit : Nat) : Bool := r.start ≤ qubit && qubit < r.stop

/-- The number of values that the qubits of the range can hold. -/
def span (r : QubitRange) : Nat := 2 ^ r.length

def mask (r : QubitRange) : BasisIndex := (r.span - 1) <<< r.start

def read (r : QubitRange) (index : BasisIndex) : Nat :=
  BasisIndex.lowBits (index >>> r.start) r.length

theorem read_eq_mod (r : QubitRange) (index : BasisIndex) :
    r.read index = (index >>> r.start) % r.span :=
  BasisIndex.lowBits_eq_mod _ _

def write (r : QubitRange) (index : BasisIndex) (value : Nat) : BasisIndex :=
  index.clear r.mask ||| (value <<< r.start)

end QubitRange

end AmplitudeTree
