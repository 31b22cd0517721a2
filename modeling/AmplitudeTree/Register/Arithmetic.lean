import AmplitudeTree.Register.Measure
import AmplitudeTree.StateVector.Arithmetic

/-!
# Arithmetic on registers

The arithmetic operators of state vectors, on qubit ranges of a register.  Operands have up to 128
bits and are reduced before they reach a state vector.  The operators *with* a carry or a borrow
measure the carry qubit first, fold it into the operand, and leave the new carry in it.  In the
subtractions a carry that is set means that there is no borrow.
-/

namespace AmplitudeTree.Register

open StateVector (Direction ModularFunction Sign)

variable {R : Type} [Scalar R]

/-! ## Operands -/

def indexSpan : Nat := 2 ^ BasisIndex.maxWidth

def operandWord (operand width : Nat) : Except (RegisterError R) Nat :=
  (BasisIndex.checkWord operand width).mapError .indexOutOfRange

def withArithmetic (op : StateVector R → Except VectorError (StateVector R)) : Action R Unit :=
  withVector [.arithmetic] fun v => return ((), ← op v)

def withResult (op : StateVector R → Except VectorError (R × StateVector R)) : Action R R :=
  withVector [.arithmetic] op

def onRange (range : QubitRange) (action : Action R Unit) : Action R Unit := do
  Action.check (·.checkRange range)
  if range.length != 0 then action

def checkCarry (reg : Register R) (range : QubitRange) (carry : Nat) :
    Except (RegisterError R) Unit := do
  reg.checkOperators [.arithmetic]
  reg.checkDense
  reg.checkRange range
  reg.checkQubit carry
  if range.contains carry then throw (.repeatedQubit carry)

def takeCarry (carry : Nat) : Action R Bool := do
  let set ← measure carry
  if set then apply .pauliX carry
  return set

/-- Runs an action with a carry qubit that is measured and cleared after `extra` is checked; nothing
happens on an empty range. -/
def onCarry (range : QubitRange) (carry : Nat)
    (extra : Register R → Except (RegisterError R) Unit) (action : Bool → Action R Unit) :
    Action R Unit := do
  Action.check (·.checkCarry range carry)
  Action.check extra
  if range.length != 0 then action (← takeCarry carry)

def noExtra (_reg : Register R) : Except (RegisterError R) Unit := .ok ()

/-! ## Binary addition -/

def add (addend : Nat) (range : QubitRange) (controls : List Nat) : Action R Unit :=
  onRange range do
    let addend ← Action.query fun _ => operandWord (addend % range.span) range.length
    withArithmetic (·.add addend range controls)

/-- The number that adds up with `operand` to the span of an index. -/
def complement (operand : Nat) : Nat := (indexSpan - operand) % indexSpan

def subtract (subtrahend : Nat) (range : QubitRange) (controls : List Nat) : Action R Unit :=
  add (complement subtrahend) range controls

def addCarry (addend : Nat) (range : QubitRange) (carry : Nat) : Action R Unit :=
  onRange range do
    let addend ← Action.query fun _ => operandWord (addend % (2 * range.span)) (range.length + 1)
    withArithmetic (·.addCarry addend range carry)

def addWithCarry (addend : Nat) (range : QubitRange) (carry : Nat) : Action R Unit :=
  onCarry range carry noExtra fun set =>
    addCarry (addend % range.span + set.toNat) range carry

def subtractWithBorrow (subtrahend : Nat) (range : QubitRange) (carry : Nat) : Action R Unit :=
  onCarry range carry noExtra fun set =>
    addCarry (range.span - (subtrahend % range.span + (!set).toNat)) range carry

/-- Adds a number in two's complement.  Basis states that overflow are negated where the qubit
`overflow` is set. -/
def addSigned (addend : Nat) (range : QubitRange) (overflow : Nat) : Action R Unit :=
  onRange range do
    let addend ← Action.query fun _ => operandWord (addend % range.span) range.length
    withArithmetic (·.addSigned addend range overflow)

def subtractSigned (subtrahend : Nat) (range : QubitRange) (overflow : Nat) : Action R Unit :=
  addSigned (complement subtrahend) range overflow

/-- Adds a number in two's complement to a range with a carry on top, and negates where the range
overflows and the flag is set. -/
def addSignedCarry (addend : Nat) (range : QubitRange) (overflow : Option Nat) (carry : Nat) :
    Action R Unit :=
  onRange range do
    let addend ← Action.query fun _ => operandWord (addend % (2 * range.span)) (range.length + 1)
    withArithmetic (·.addSignedCarry addend range overflow carry)

def checkOverflow (overflow : Option Nat) (reg : Register R) : Except (RegisterError R) Unit :=
  match overflow with
  | some qubit => reg.checkQubit qubit
  | none => .ok ()

def addSignedWithCarry (addend : Nat) (range : QubitRange) (overflow : Option Nat) (carry : Nat) :
    Action R Unit :=
  onCarry range carry (checkOverflow overflow) fun set =>
    addSignedCarry (addend % range.span + set.toNat) range overflow carry

def subtractSignedWithBorrow (subtrahend : Nat) (range : QubitRange) (overflow : Option Nat)
    (carry : Nat) : Action R Unit :=
  onCarry range carry (checkOverflow overflow) fun set =>
    addSignedCarry (range.span - (subtrahend % range.span + (!set).toNat)) range overflow carry

/-! ## Decimal addition -/

def decimalSpan (range : QubitRange) : Nat := 10 ^ (range.length / 4)

/-- Adds a number to a decimal range, modulo the number of its values. -/
def addDecimal (addend : Nat) (range : QubitRange) : Action R Unit :=
  onRange range do
    let addend ← Action.query fun _ => operandWord (addend % decimalSpan range) range.length
    withArithmetic (·.addDecimal addend range)

def subtractDecimal (subtrahend : Nat) (range : QubitRange) : Action R Unit := do
  Action.check (·.checkRange range)
  addDecimal (decimalSpan range - subtrahend % decimalSpan range) range

def addDecimalCarry (addend : Nat) (range : QubitRange) (carry : Nat) : Action R Unit :=
  onRange range do
    let addend ← Action.query fun _ =>
      operandWord (addend % (2 * decimalSpan range)) (range.length + 1)
    withArithmetic (·.addDecimalCarry addend range carry)

def addDecimalWithCarry (addend : Nat) (range : QubitRange) (carry : Nat) : Action R Unit :=
  onCarry range carry noExtra fun set =>
    addDecimalCarry (addend % decimalSpan range + set.toNat) range carry

def subtractDecimalWithBorrow (subtrahend : Nat) (range : QubitRange) (carry : Nat) :
    Action R Unit :=
  onCarry range carry noExtra fun set =>
    let modulus := decimalSpan range
    let taken := subtrahend % modulus + (!set).toNat
    addDecimalCarry (modulus - taken % modulus) range carry

/-! ## Multiplication -/

/-- Multiplies the number in the range at `start`, the high half going to the range at `high`;
backward, divides. -/
def multiply (direction : Direction) (factor start high length : Nat) (controls : List Nat) :
    Action R Unit :=
  onRange ⟨start, length⟩ do
    let factor ← Action.query fun _ => operandWord factor length
    withArithmetic (·.multiply direction factor start high length controls)

def functionWord (f : ModularFunction) (width : Nat) : Except (RegisterError R) ModularFunction :=
  match f with
  | .multiple factor => ModularFunction.multiple <$> operandWord factor width
  | .power base => ModularFunction.power <$> operandWord base width

/-- Writes a modular function of one range to another one, which must be zero; backward, takes it
away again. -/
def modularOut (direction : Direction) (f : ModularFunction)
    (modulus input output length : Nat) (controls : List Nat) : Action R Unit :=
  onRange ⟨input, length⟩ do
    let f ← Action.query fun _ => functionWord f length
    let modulus ← Action.query fun _ => operandWord modulus length
    withArithmetic (·.modularOut direction f modulus input output length controls)

/-! ## Comparison -/

/-- Negates the basis states whose range holds less than `bound`, if a flag is given only where it
is set. -/
def negateBelow (bound : Nat) (range : QubitRange) (flag : Option Nat) : Action R Unit := do
  Action.check (·.checkRange range)
  let bound ← Action.query fun _ => operandWord bound range.length
  withArithmetic (·.negateBelow bound range flag)

/-! ## Tables -/

def checkLookup (argument value : QubitRange) (table : Array UInt8) (reg : Register R) :
    Except (RegisterError R) Unit := do
  reg.checkOperators [.arithmetic]
  reg.checkDense
  reg.checkRange argument
  reg.checkRange value
  let shared := max argument.start value.start
  if shared < min argument.stop value.stop then throw (.repeatedQubit shared)
  (StateVector.checkTable table argument.span value.length).mapError .vector

/-- Combines a range with a table entry by exclusive or, and returns its mean; `reset` measures and
clears it before. -/
def load (argument value : QubitRange) (table : Array UInt8) (reset : Bool) : Action R R := do
  Action.check (checkLookup argument value table)
  if reset then prepareRange value 0
  withResult (·.load argument value table)

/-- Adds a table entry to a range with carry, or subtracts it with borrow, and returns the mean of
the range. -/
def combine (sign : Sign) (argument value : QubitRange) (carry : Nat) (table : Array UInt8) :
    Action R R := do
  Action.check (checkLookup argument value table)
  withResult fun v =>
    let (mean, v) := v.combine sign argument value carry table
    mean.map fun mean => (mean, v)

def substitute (range : QubitRange) (table : Array UInt8) : Action R Unit :=
  onRange range do
    withArithmetic (·.substitute range table)

end AmplitudeTree.Register
