import AmplitudeTree.StateVector.Parity

/-!
# Arithmetic operators

Operators that read numbers from qubit ranges.  Each is a map of basis indices, some with a sign:
addition with and without controls, carry and sign, decimal addition, multiplication, modular
multiplication and exponentiation into a free range, comparison, and table look-up.  An operator is
an update, and under the same name a function to the state vector that results unless it refuses.

A decimal range holds one digit in every four qubits.  A table holds its entries in as many bytes as
the entry's range needs, the lowest byte first.
-/

namespace AmplitudeTree.StateVector

variable {R : Type} [Scalar R]

/-! ## Operands -/

/-- Accepts ranges of the register that have no qubit in common, where the qubits of `seen` are
already taken. -/
def checkDisjointFrom (v : StateVector R) (seen : BasisIndex) :
    List QubitRange → Except VectorError Unit
  | [] => .ok ()
  | range :: ranges => do
      v.checkRange range
      if seen &&& range.mask != 0 then throw (.rangesOverlap range)
      v.checkDisjointFrom (seen ||| range.mask) ranges

def checkDisjoint (v : StateVector R) (ranges : List QubitRange) : Except VectorError Unit :=
  v.checkDisjointFrom 0 ranges

def operandControls (v : StateVector R) (controls : List Nat) (operands : BasisIndex) :
    Except VectorError BasisIndex := do
  let mask ← v.controlMask controls
  if mask &&& operands != 0 then throw .controlInOperand
  return mask

/-- The mean of the number held by a range, weighted with the squared moduli. -/
def expectation (v : StateVector R) (range : QubitRange) : R :=
  v.amplitudes.zipIdx.foldl
    (fun total (a, index) => total + a.normSq * Scalar.ofNat (range.read index)) 0

/-! ## Binary addition -/

def addIndex (addend : Nat) (range : QubitRange) (controls index : BasisIndex) : BasisIndex :=
  if index.hasAll controls then range.write index ((range.read index + addend) % range.span)
  else index

def Update.add (addend : Nat) (range : QubitRange) (controls : List Nat) : Update R Unit := do
  Update.check (·.checkRange range)
  let mask ← Update.query (·.operandControls controls range.mask)
  modify (·.scatter fun index => some (addIndex addend range mask index))

def add (v : StateVector R) (addend : Nat) (range : QubitRange) (controls : List Nat) :
    Except VectorError (StateVector R) :=
  (Update.add addend range controls).changed v

def readWide (range : QubitRange) (carry : Nat) (index : BasisIndex) : Nat :=
  range.read index + (if index.bit carry then range.span else 0)

def writeWide (range : QubitRange) (carry : Nat) (index : BasisIndex) (value : Nat) : BasisIndex :=
  (QubitRange.single carry).write (range.write index (value % range.span))
    (value / range.span % 2)

def addCarryIndex (addend : Nat) (range : QubitRange) (carry : Nat) (index : BasisIndex) :
    BasisIndex :=
  writeWide range carry index ((readWide range carry index + addend) % (2 * range.span))

def Update.addCarry (addend : Nat) (range : QubitRange) (carry : Nat) : Update R Unit := do
  Update.check (·.checkDisjoint [range, .single carry])
  modify (·.scatter fun index => some (addCarryIndex addend range carry index))

def addCarry (v : StateVector R) (addend : Nat) (range : QubitRange) (carry : Nat) :
    Except VectorError (StateVector R) :=
  (Update.addCarry addend range carry).changed v

/-- Whether a sum in two's complement overflows: the summands have one sign
and the sum the other. -/
def overflows (length a b sum : Nat) : Bool :=
  a.testBit (length - 1) == b.testBit (length - 1) &&
    a.testBit (length - 1) != sum.testBit (length - 1)

def overflowsAt (addend : Nat) (range : QubitRange) (index : BasisIndex) : Bool :=
  let addend := addend % range.span
  let value := range.read index
  overflows range.length value addend ((value + addend) % range.span)

/-- Adds a number in two's complement.  Basis states that overflow are negated where the qubit
`overflow` is set. -/
def Update.addSigned (addend : Nat) (range : QubitRange) (overflow : Nat) : Update R Unit := do
  Update.check (·.checkDisjoint [range, .single overflow])
  modify (·.overwrite (addIndex (addend % range.span) range 0)
    fun index => overflowsAt addend range index && index.bit overflow)

def addSigned (v : StateVector R) (addend : Nat) (range : QubitRange) (overflow : Nat) :
    Except VectorError (StateVector R) :=
  (Update.addSigned addend range overflow).changed v

/-- Adds a number in two's complement to a range with a carry on top, and negates where the range
overflows and the flag is set. -/
def Update.addSignedCarry (addend : Nat) (range : QubitRange) (overflow : Option Nat)
    (carry : Nat) : Update R Unit := do
  Update.check (·.checkDisjoint ([range, .single carry] ++ overflow.toList.map .single))
  modify (·.overwrite (addCarryIndex addend range carry)
    fun index =>
      overflows range.length (range.read index) (addend % range.span)
        (range.read (addCarryIndex addend range carry index)) &&
      overflow.all fun qubit => index.bit qubit)

def addSignedCarry (v : StateVector R) (addend : Nat) (range : QubitRange)
    (overflow : Option Nat) (carry : Nat) : Except VectorError (StateVector R) :=
  (Update.addSignedCarry addend range overflow carry).changed v

/-! ## Decimal addition -/

def checkDecimal (v : StateVector R) (range : QubitRange) : Except VectorError Nat := do
  v.checkRange range
  if range.length % 4 != 0 then throw (.notDecimal range.length)
  return range.length / 4

/-- The number that decimal digits stand for, if none is above nine. -/
def decodeDecimal : (digits : Nat) → (raw : Nat) → Option Nat
  | 0, _ => some 0
  | digits + 1, raw =>
      (decodeDecimal digits (raw / 16)).bind fun rest =>
        if raw % 16 ≤ 9 then some (rest * 10 + raw % 16) else none

def encodeDecimal : (digits : Nat) → (value : Nat) → Nat
  | 0, _ => 0
  | digits + 1, value => value % 10 + 16 * encodeDecimal digits (value / 10)

/-- The index after `addend` is added to a decimal range; a basis state with a
digit above nine stays. -/
def addDecimalIndex (addend digits : Nat) (range : QubitRange) (index : BasisIndex) : BasisIndex :=
  match decodeDecimal digits (range.read index) with
  | some value => range.write index (encodeDecimal digits ((value + addend) % 10 ^ digits))
  | none => index

def Update.addDecimal (addend : Nat) (range : QubitRange) : Update R Unit := do
  let digits ← Update.query (·.checkDecimal range)
  modify (·.scatter fun index => some (addDecimalIndex addend digits range index))

def addDecimal (v : StateVector R) (addend : Nat) (range : QubitRange) :
    Except VectorError (StateVector R) :=
  (Update.addDecimal addend range).changed v

def addDecimalCarryIndex (addend digits : Nat) (range : QubitRange) (carry : Nat)
    (index : BasisIndex) : BasisIndex :=
  match decodeDecimal digits (range.read index) with
  | some value =>
      let modulus := 10 ^ digits
      let wide := value + if index.bit carry then modulus else 0
      let sum := (wide + addend) % (2 * modulus)
      (QubitRange.single carry).write
        (range.write index (encodeDecimal digits (sum % modulus))) (sum / modulus)
  | none => index

def Update.addDecimalCarry (addend : Nat) (range : QubitRange) (carry : Nat) : Update R Unit := do
  let digits ← Update.query (·.checkDecimal range)
  Update.check (·.checkDisjoint [range, .single carry])
  modify (·.scatter fun index => some (addDecimalCarryIndex addend digits range carry index))

def addDecimalCarry (v : StateVector R) (addend : Nat) (range : QubitRange) (carry : Nat) :
    Except VectorError (StateVector R) :=
  (Update.addDecimalCarry addend range carry).changed v

/-! ## Multiplication -/

/-- Whether amplitudes are moved along an index map or back against it. -/
inductive Direction where
  | forward
  | backward

def move (v : StateVector R) (direction : Direction) (map : BasisIndex → Option BasisIndex) :
    StateVector R :=
  match direction with
  | .forward => v.scatter map
  | .backward => v.gather map

/-- The index after the number in `range` is multiplied; there is none where `high` is not zero. -/
def multiplyIndex (factor : Nat) (range high : QubitRange) (controls index : BasisIndex) :
    Option BasisIndex :=
  if !index.hasAll controls then some index
  else if index &&& high.mask != 0 then none
  else
    let product := range.read index * factor
    some (high.write (range.write index (product % range.span))
      (product / range.span % range.span))

/-- Multiplies the number in the range at `start`, the high half going to the range at `high`;
backward, divides. -/
def Update.multiply (direction : Direction) (factor start high length : Nat)
    (controls : List Nat) : Update R Unit := do
  let range : QubitRange := ⟨start, length⟩
  let high : QubitRange := ⟨high, length⟩
  Update.check (·.checkDisjoint [range, high])
  if factor == 0 then throw .zeroMultiplier
  let mask ← Update.query (·.operandControls controls (range.mask ||| high.mask))
  modify (·.move direction (multiplyIndex factor range high mask))

def multiply (v : StateVector R) (direction : Direction) (factor start high length : Nat)
    (controls : List Nat) : Except VectorError (StateVector R) :=
  (Update.multiply direction factor start high length controls).changed v

/-- The power of a base modulo a number by repeated squaring, `power` being the base raised to the
bits used so far. -/
def powModFrom (modulus : Nat) (exponent power result : Nat) : Nat :=
  if h : exponent = 0 then result
  else
    have : exponent / 2 < exponent := Nat.div_lt_self (Nat.pos_of_ne_zero h) (by decide)
    powModFrom modulus (exponent / 2) (power * power % modulus)
      (if exponent % 2 == 1 then result * power % modulus else result)
termination_by exponent

def powMod (base exponent modulus : Nat) : Nat :=
  powModFrom modulus exponent (base % modulus) (1 % modulus)

inductive ModularFunction where
  | multiple (factor : Nat)
  | power (base : Nat)

def ModularFunction.value (f : ModularFunction) (modulus argument : Nat) : Nat :=
  match f with
  | .multiple factor => argument * factor % modulus
  | .power base => powMod base argument modulus

/-- The index after `value` of the number in `input` is written to `output`; there is none where
`output` is not zero. -/
def outputIndex (value : Nat → Nat) (input output : QubitRange) (controls index : BasisIndex) :
    Option BasisIndex :=
  if !index.hasAll controls then some index
  else if index &&& output.mask != 0 then none
  else some (index ||| (value (input.read index) <<< output.start))

/-- Writes a modular function of one range to another one, which must be zero; backward, takes it
away again. -/
def Update.modularOut (direction : Direction) (f : ModularFunction)
    (modulus input output length : Nat) (controls : List Nat) : Update R Unit := do
  if modulus == 0 || 2 ^ length < modulus then throw (.modulusOutOfRange modulus length)
  let input : QubitRange := ⟨input, length⟩
  let output : QubitRange := ⟨output, length⟩
  Update.check (·.checkDisjoint [input, output])
  let mask ← Update.query (·.operandControls controls (input.mask ||| output.mask))
  modify (·.move direction (outputIndex (f.value modulus) input output mask))

def modularOut (v : StateVector R) (direction : Direction) (f : ModularFunction)
    (modulus input output length : Nat) (controls : List Nat) :
    Except VectorError (StateVector R) :=
  (Update.modularOut direction f modulus input output length controls).changed v

/-! ## Comparison -/

def checkCompared (v : StateVector R) (range : QubitRange) :
    (flag : Option Nat) → Except VectorError Unit
  | none => v.checkRange range
  | some qubit => v.checkDisjoint [range, .single qubit]

/-- Negates the basis states whose range holds less than `bound`, if a flag is given only where it
is set. -/
def Update.negateBelow (bound : Nat) (range : QubitRange) (flag : Option Nat) : Update R Unit := do
  Update.check (·.checkCompared range flag)
  modify (·.negateWhere fun index =>
    flag.all (fun qubit => index.bit qubit) && range.read index < bound)

def negateBelow (v : StateVector R) (bound : Nat) (range : QubitRange) (flag : Option Nat) :
    Except VectorError (StateVector R) :=
  (Update.negateBelow bound range flag).changed v

/-! ## Tables -/

def littleEndian (table : Array UInt8) : (bytes : Nat) → (position : Nat) → Nat
  | 0, _ => 0
  | bytes + 1, position =>
      (table[position]?.getD 0).toNat + 256 * littleEndian table bytes (position + 1)

def entryBytes (length : Nat) : Nat := (length + 7) / 8

def tableEntry (table : Array UInt8) (length argument : Nat) : Nat :=
  littleEndian table (entryBytes length) (argument * entryBytes length)

def checkTable (table : Array UInt8) (entries length : Nat) : Except VectorError Unit :=
  let needed := entries * entryBytes length
  if table.size < needed then .error (.tableTooShort needed table.size) else .ok ()

def loadIndex (table : Array UInt8) (argument value : QubitRange) (index : BasisIndex) :
    BasisIndex :=
  index ^^^ ((tableEntry table value.length (argument.read index) % value.span) <<< value.start)

/-- Combines a range with a table entry by exclusive or, and returns the mean of
the range afterwards. -/
def Update.load (argument value : QubitRange) (table : Array UInt8) : Update R R := do
  Update.check (·.checkDisjoint [argument, value])
  Update.check fun _ => checkTable table argument.span value.length
  modify (·.scatter fun index => some (loadIndex table argument value index))
  return (← get).expectation value

def load (v : StateVector R) (argument value : QubitRange) (table : Array UInt8) :
    Except VectorError (R × StateVector R) :=
  (Update.load argument value table).outcome v

inductive Sign where
  | plus
  | minus

/-- The value and the carry after an entry is added or subtracted; a set carry means no borrow. -/
def Sign.combine (sign : Sign) (span value entry : Nat) (carry : Bool) : Nat × Bool :=
  match sign with
  | .plus =>
      let sum := value + entry + carry.toNat
      (sum % span, span ≤ sum)
  | .minus =>
      let taken := entry + (!carry).toNat
      if taken ≤ value then (value - taken, true) else (value + span - taken, false)

/-- The index after an entry is combined with `value`; there is none where `carry` is still set. -/
def combineIndex (table : Array UInt8) (sign : Sign) (argument value : QubitRange) (carry : Nat)
    (carryIn : Bool) (index : BasisIndex) : Option BasisIndex :=
  if index.bit carry then none
  else
    let entry := tableEntry table value.length (argument.read index) % value.span
    let (out, carryOut) := sign.combine value.span (value.read index) entry carryIn
    some (value.write index out ||| (if carryOut then .power carry else 0))

/-- Measures the carry, adds or subtracts a table entry with it, and returns the
mean of the range. -/
def combine (v : StateVector R) (sign : Sign) (argument value : QubitRange) (carry : Nat)
    (table : Array UInt8) : Except VectorError R × StateVector R :=
  let checked := do
    v.checkDisjoint [argument, value, .single carry]
    checkTable table argument.span value.length
  match checked with
  | .error e => (.error e, v)
  | .ok () =>
      match v.measureParity (.power carry) none with
      | (.error e, v) => (.error e, v)
      | (.ok carryIn, v) =>
          let v := if carryIn then v.scatter fun index => some (index ^^^ .power carry) else v
          let v := v.scatter (combineIndex table sign argument value carry carryIn)
          (.ok (v.expectation value), v)

/-- Whether the entries are distinct numbers below the size of `seen` that it does not mark. -/
def distinctBelow : (entries : List Nat) → (seen : Array Bool) → Bool
  | [], _ => true
  | entry :: entries, seen =>
      match seen[entry]? with
      | some false => distinctBelow entries (seen.setIfInBounds entry true)
      | _ => false

/-- Replaces the number in a range by its table entry; the table must be a permutation. -/
def Update.substitute (range : QubitRange) (table : Array UInt8) : Update R Unit := do
  Update.check (·.checkRange range)
  Update.check fun _ => checkTable table range.span range.length
  let entries := (List.range range.span).map (tableEntry table range.length)
  if !distinctBelow entries (.replicate range.span false) then throw .notPermutation
  modify (·.scatter fun index =>
    some (range.write index (tableEntry table range.length (range.read index))))

def substitute (v : StateVector R) (range : QubitRange) (table : Array UInt8) :
    Except VectorError (StateVector R) :=
  (Update.substitute range table).changed v

end AmplitudeTree.StateVector
