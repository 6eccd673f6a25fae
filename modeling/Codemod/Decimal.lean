/-!
# Decimal numbers

Decimal numbers as they are written, the binary number of 53 significant bits
nearest to one, and the shortest decimal that stands for a binary number.  All
of it is exact arithmetic on natural numbers.
-/

namespace Codemod

/-- The number `mantissa * 10 ^ exponent`, with a sign. -/
structure Decimal where
  isNegative : Bool
  mantissa : Nat
  exponent : Int
  deriving DecidableEq, Repr

/-- The number `mantissa * 2 ^ exponent`, with a sign. -/
structure Binary where
  isNegative : Bool
  mantissa : Nat
  exponent : Int
  deriving DecidableEq, Repr

structure Fraction where
  numerator : Nat
  denominator : Nat

namespace Fraction

def scaled (value base : Nat) (exponent : Int) : Fraction :=
  if 0 ≤ exponent then ⟨value * base.pow exponent.toNat, 1⟩
  else ⟨value, base.pow (-exponent).toNat⟩

def unscaled (fraction : Fraction) (base : Nat) (exponent : Int) : Fraction :=
  if 0 ≤ exponent then
    ⟨fraction.numerator, fraction.denominator * base.pow exponent.toNat⟩
  else ⟨fraction.numerator * base.pow (-exponent).toNat, fraction.denominator⟩

def floor (fraction : Fraction) : Nat :=
  fraction.numerator / fraction.denominator

/-- The nearest natural number; a half goes to the even neighbour. -/
def round (fraction : Fraction) : Nat :=
  let whole := fraction.floor
  let rest := 2 * (fraction.numerator % fraction.denominator)
  if rest < fraction.denominator then whole
  else if fraction.denominator < rest then whole + 1
  else if whole % 2 = 0 then whole else whole + 1

def less (left right : Fraction) : Bool :=
  left.numerator * right.denominator < right.numerator * left.denominator

end Fraction

namespace Decimal

/-- The exponent that leaves 53 bits before the point, for a positive number. -/
def binaryExponent (value : Fraction) : Int :=
  let guess : Int := (value.numerator.log2 : Int) - value.denominator.log2 - 52
  let whole := (value.unscaled 2 guess).floor
  let exact := if whole < Nat.pow 2 52 then guess - 1 else guess
  max exact (-1074)

/-- The nearest binary number; nothing if it is too large to be written. -/
def toBinary? (decimal : Decimal) : Option Binary :=
  let digits := (Nat.toDigits 10 decimal.mantissa).length
  let magnitude : Int := digits + decimal.exponent
  if decimal.mantissa = 0 || magnitude < -330 then
    some ⟨decimal.isNegative, 0, 0⟩
  else if magnitude > 310 then none
  else
    let value := Fraction.scaled decimal.mantissa 10 decimal.exponent
    let exponent := binaryExponent value
    let mantissa := (value.unscaled 2 exponent).round
    let (mantissa, exponent) :=
      if mantissa = Nat.pow 2 53 then (Nat.pow 2 52, exponent + 1) else (mantissa, exponent)
    if exponent > 971 then none
    else some ⟨decimal.isNegative, mantissa, exponent⟩

end Decimal

namespace Binary

/-- The lower and upper ends of the numbers that round to a binary number. -/
def interval (binary : Binary) : Fraction × Fraction :=
  let isPower := binary.mantissa = Nat.pow 2 52 && binary.exponent > -1074
  let lower :=
    if isPower then
      Fraction.scaled (4 * binary.mantissa - 1) 2 (binary.exponent - 2)
    else Fraction.scaled (2 * binary.mantissa - 1) 2 (binary.exponent - 1)
  (lower, Fraction.scaled (2 * binary.mantissa + 1) 2 (binary.exponent - 1))

/-- Whether a decimal stands for the binary number. -/
def standsFor (binary : Binary) (digits : Nat) (exponent : Int) : Bool :=
  let value := Fraction.scaled digits 10 exponent
  let (lower, upper) := binary.interval
  if binary.mantissa % 2 = 0 then !value.less lower && !upper.less value
  else lower.less value && value.less upper

/-- The decimal with a number of places that stands for the binary number. -/
def nearestWith (binary : Binary) (exponent : Int) : Option Nat :=
  let value := (Fraction.scaled binary.mantissa 2 binary.exponent).unscaled 10
    exponent
  let lower := value.floor
  let nearest := value.round
  let other := if nearest = lower then lower + 1 else lower
  if binary.standsFor nearest exponent then some nearest
  else if binary.standsFor other exponent then some other
  else none

/-- The place of the first digit before the point. -/
def leadingPlace (binary : Binary) : Int :=
  let value := Fraction.scaled binary.mantissa 2 binary.exponent
  if value.denominator ≤ value.numerator then
    ((Nat.toDigits 10 value.floor).length : Int)
  else
    let shifted := (value.unscaled 10 (-400)).floor
    ((Nat.toDigits 10 shifted).length : Int) - 400

/-- Try more and more digits until some stand for the binary number. -/
def shortestFrom (binary : Binary) (place : Int) :
    (fuel : Nat) → (count : Nat) → Decimal
  | 0, _ => ⟨binary.isNegative, binary.mantissa, 0⟩
  | fuel + 1, count =>
    match binary.nearestWith (place - count) with
    | some digits => ⟨binary.isNegative, digits, place - count⟩
    | none => shortestFrom binary place fuel (count + 1)

/-- The decimal of the fewest digits that stands for a binary number. -/
def shortest (binary : Binary) : Decimal :=
  if binary.mantissa = 0 then ⟨binary.isNegative, 0, 0⟩
  else binary.shortestFrom binary.leadingPlace 17 1

end Binary

namespace Decimal

/-- A decimal without an exponent, with at least one digit after the point. -/
def positional (digits : List Char) (exponent : Int) : List Char :=
  if 0 ≤ exponent then
    digits ++ List.replicate exponent.toNat '0' ++ ['.', '0']
  else
    let places := (-exponent).toNat
    let padded := List.replicate (places + 1 - digits.length) '0' ++ digits
    padded.take (padded.length - places) ++ '.' ::
      padded.drop (padded.length - places)

/-- A decimal with its point after the first digit and an exponent. -/
def scientific (digits : List Char) (place : Int) : List Char :=
  let mantissa :=
    match digits with
    | first :: second :: rest => first :: '.' :: second :: rest
    | digits => digits
  mantissa ++ 'e' :: (toString (place - 1)).toList

/-- A decimal as text: positional from five places after the point to sixteen before. -/
def text (decimal : Decimal) : String :=
  let sign := if decimal.isNegative then ['-'] else []
  let digits := Nat.toDigits 10 decimal.mantissa
  let place := (digits.length : Int) + decimal.exponent
  let body :=
    if decimal.mantissa = 0 then ['0', '.', '0']
    else if -5 < place && place ≤ 16 then positional digits decimal.exponent
    else scientific digits place
  String.ofList (sign ++ body)

end Decimal

end Codemod
