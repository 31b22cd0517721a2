import AmplitudeTree.Power

/-!
# Decimal numbers

Numbers given by decimal digits and a power of ten, their positional text, and the reading of number
literals.
-/

namespace AmplitudeTree

/-- The number `digits · 10 ^ exponent`. -/
structure Decimal where
  digits : Nat
  exponent : Int

namespace Decimal

def digitsOf (n : Nat) : List Char := Nat.toDigits 10 n

def trimmed (d : Decimal) : Decimal :=
  if d.digits ≠ 0 ∧ d.digits % 10 = 0 then trimmed ⟨d.digits / 10, d.exponent + 1⟩ else d
termination_by d.digits
decreasing_by omega

/-- The text of a number without an exponent, with a point only before decimal places. -/
def positional (d : Decimal) : String :=
  if 0 ≤ d.exponent then
    String.ofList (digitsOf d.digits ++ List.replicate d.exponent.toNat '0')
  else
    let places := (-d.exponent).toNat
    let digits := digitsOf d.digits
    let padded := List.replicate (places + 1 - digits.length) '0' ++ digits
    let point := padded.length - places
    String.ofList (padded.take point ++ '.' :: padded.drop point)

def digitValue? (base : Nat) (c : Char) : Option Nat :=
  let value? :=
    if c.isDigit then some (c.toNat - '0'.toNat)
    else if 'a' ≤ c && c ≤ 'f' then some (c.toNat - 'a'.toNat + 10)
    else if 'A' ≤ c && c ≤ 'F' then some (c.toNat - 'A'.toNat + 10)
    else none
  value?.filter (· < base)

def readDigits? (base : Nat) : List Char → Option Nat
  | [] => none
  | digits => digits.foldlM (fun n c => (digitValue? base c).map (n * base + ·)) 0

/-- The number written by digits after an optional plus sign, if it is below `bound`. -/
def readNatural? (bound : Nat) (text : List Char) : Option Nat :=
  let digits := match text with
    | '+' :: rest => rest
    | _ => text
  (readDigits? 10 digits).filter (· < bound)

def splitSign : List Char → Bool × List Char
  | '-' :: rest => (true, rest)
  | '+' :: rest => (false, rest)
  | text => (false, text)

/-- The exponent part of a literal: nothing, or the letter e and an integer. -/
def readExponent? : List Char → Option Int
  | [] => some 0
  | c :: rest =>
      if c.toLower != 'e' then none
      else
        let (negative, digits) := splitSign rest
        (readDigits? 10 digits).map fun n => if negative then -(n : Int) else (n : Int)

/-- The number written by a literal without sign, with an optional point and exponent. -/
def read? (text : List Char) : Option Decimal :=
  let whole := text.takeWhile Char.isDigit
  let afterWhole := text.dropWhile Char.isDigit
  let (places, rest) :=
    match afterWhole with
    | '.' :: tail => (tail.takeWhile Char.isDigit, tail.dropWhile Char.isDigit)
    | _ => ([], afterWhole)
  match readDigits? 10 (whole ++ places), readExponent? rest with
  | some digits, some exponent => some ⟨digits, exponent - places.length⟩
  | _, _ => none

end Decimal

end AmplitudeTree
