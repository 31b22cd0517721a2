import AmplitudeTree.Decimal.Basic
import AmplitudeTree.StoredDouble

/-!
# Doubles in decimal

The double nearest to a decimal number, the reading of double literals, and the shortest decimal
number that reads back as a given double.

A finite double is `m · 2 ^ q`.  The numbers that read back as it form an interval around it, whose
ends belong to it when `m` is even.  `shortest` tests for one digit, two digits and so on whether
one of the two neighbours of the double among the numbers with so many digits lies in that interval.
-/

namespace AmplitudeTree.Decimal

def greatestPower : Int := 310

def leastPower : Int := -330

def toDouble (d : Decimal) : Float :=
  let magnitude := d.exponent + (digitsOf d.digits).length
  if d.digits == 0 || magnitude < leastPower then 0.0
  else if greatestPower < magnitude then 1.0 / 0.0
  else Float.ofScientific d.digits (d.exponent < 0) d.exponent.natAbs

/-- The double that a text stands for: a literal, `inf`, `infinity` or `nan`, in either case. -/
def readDouble? (text : List Char) : Option StoredDouble :=
  let (negative, body) := splitSign text
  let word := String.ofList (body.map Char.toLower)
  let magnitude? :=
    if word == "inf" || word == "infinity" then some (1.0 / 0.0)
    else if word == "nan" then some (0.0 / 0.0)
    else (read? body).map toDouble
  (magnitude?.map .ofFloat).map fun magnitude => if negative then magnitude.neg else magnitude

structure Ratio where
  numerator : Nat
  denominator : Nat

def Ratio.ofBinary (m : Nat) (q : Int) : Ratio :=
  if 0 ≤ q then ⟨m * 2 ^ q.toNat, 1⟩ else ⟨m, 2 ^ (-q).toNat⟩

def Ratio.ofDecimal (d : Decimal) : Ratio :=
  if 0 ≤ d.exponent then ⟨d.digits * 10 ^ d.exponent.toNat, 1⟩
  else ⟨d.digits, 10 ^ (-d.exponent).toNat⟩

def Ratio.lt (a b : Ratio) : Bool := a.numerator * b.denominator < b.numerator * a.denominator

def Ratio.distance (a b : Ratio) : Ratio :=
  let left := a.numerator * b.denominator
  let right := b.numerator * a.denominator
  ⟨(left - right) + (right - left), a.denominator * b.denominator⟩

def Ratio.floorScaled (a : Ratio) (power : Int) : Nat :=
  if 0 ≤ power then a.numerator * 10 ^ power.toNat / a.denominator
  else a.numerator / (a.denominator * 10 ^ (-power).toNat)

def Ratio.leadingPower (a : Ratio) : Int :=
  let shift : Int := 350
  (digitsOf (a.floorScaled shift)).length - 1 - shift

/-- A positive double `m · 2 ^ q` and the interval of numbers that read back as it. -/
structure Rounding where
  value : Ratio
  low : Ratio
  high : Ratio
  closed : Bool

/-- The rounding interval of `m · 2 ^ q`.  Below a power of two the doubles lie twice as close. -/
def Rounding.ofBinary (m : Nat) (q : Int) : Rounding :=
  let atPower := m == 2 ^ 52 && q != -1074
  ⟨.ofBinary m q,
   if atPower then .ofBinary (4 * m - 1) (q - 2) else .ofBinary (2 * m - 1) (q - 1),
   .ofBinary (2 * m + 1) (q - 1),
   m % 2 == 0⟩

def Rounding.contains (r : Rounding) (a : Ratio) : Bool :=
  if r.closed then !a.lt r.low && !r.high.lt a else r.low.lt a && a.lt r.high

/-- The neighbour with a given number of digits that reads back as the double, of two the nearer and
else the greater one. -/
def Rounding.withDigits? (r : Rounding) (power : Int) (count : Nat) : Option Decimal :=
  let exponent := power - count + 1
  let below := r.value.floorScaled (-exponent)
  let neighbours : List Decimal := [⟨below, exponent⟩, ⟨below + 1, exponent⟩]
  match neighbours.filter fun d => r.contains (.ofDecimal d) with
  | [a, b] =>
      let toA := r.value.distance (.ofDecimal a)
      let toB := r.value.distance (.ofDecimal b)
      some (if toA.lt toB then a else b)
  | candidates => candidates.head?

/-- The shortest decimal number that reads back as `m · 2 ^ q`; seventeen digits always do. -/
def shortest (m : Nat) (q : Int) : Decimal :=
  let r := Rounding.ofBinary m q
  let power := r.value.leadingPower
  (((List.range 17).findSome? fun k => r.withDigits? power (k + 1)).getD ⟨0, 0⟩).trimmed

/-- The text of a double: its shortest digits without an exponent, `inf` or `NaN`. -/
def render (x : Float) : String :=
  if x.isNaN then "NaN"
  else
    let bits := x.toBits.toNat
    let sign := if bits.testBit 63 then "-" else ""
    let fraction : Nat := bits % 2 ^ 52
    let biased : Nat := bits / 2 ^ 52 % 2 ^ 11
    let magnitude :=
      if biased == 2047 then "inf"
      else if biased == 0 && fraction == 0 then "0"
      else if biased == 0 then (shortest fraction (-1074)).positional
      else (shortest (2 ^ 52 + fraction) ((biased : Int) - 1075)).positional
    sign ++ magnitude

end AmplitudeTree.Decimal
