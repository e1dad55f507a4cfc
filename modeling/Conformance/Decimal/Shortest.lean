import Conformance.Decimal.Basic

/-!
# The shortest text of a floating point number

A decimal number stands for the binary number of fifty-three bits that is nearest to it, of
two equally near ones the one with an even significand. Going back, that number is written
with the fewest digits that stand for it, and of those with the digits nearest to it.

Everything is exact: a number is a fraction of natural numbers.
-/

namespace Conformance

/-- A fraction that is not negative. -/
structure Fraction where
  num : Nat
  den : Nat
  deriving Repr, Inhabited

namespace Fraction

/-- A natural number times a power. -/
def scaled (n base : Nat) (exponent : Int) : Fraction :=
  if 0 ≤ exponent then ⟨n * base.pow exponent.toNat, 1⟩ else ⟨n, base.pow (-exponent).toNat⟩

/-- The fraction divided by a power. -/
def dividedBy (x : Fraction) (base : Nat) (exponent : Int) : Fraction :=
  if 0 ≤ exponent then ⟨x.num, x.den * base.pow exponent.toNat⟩
  else ⟨x.num * base.pow (-exponent).toNat, x.den⟩

def le (x y : Fraction) : Bool := x.num * y.den ≤ y.num * x.den
def lt (x y : Fraction) : Bool := x.num * y.den < y.num * x.den

def floor (x : Fraction) : Nat := x.num / x.den

/-- The nearest natural number; a half goes to the even one. -/
def round (x : Fraction) : Nat :=
  let n := x.floor
  let twice := 2 * (x.num % x.den)
  if twice < x.den || (twice = x.den && n % 2 = 0) then n else n + 1

/-- The distance of two fractions. -/
def distance (x y : Fraction) : Fraction :=
  ⟨max (x.num * y.den) (y.num * x.den) - min (x.num * y.den) (y.num * x.den), x.den * y.den⟩

/-- The largest power of a base that is not above the fraction, which is not zero. -/
def logFloor (base : Nat) (x : Fraction) : Int :=
  let guess : Int := (Nat.log2 x.num : Int) - Nat.log2 x.den
  if base = 2 then
    if (scaled 1 2 guess).le x then guess else guess - 1
  else
    let near := guess * 30103 / 100000
    if (scaled 1 base (near + 1)).le x then near + 1
    else if (scaled 1 base near).le x then near
    else near - 1

end Fraction

/-- A significand of at most fifty-three bits, times a power of two. -/
structure Binary where
  significand : Nat
  exponent : Int
  deriving DecidableEq, Repr, Inhabited

namespace Binary

/-- The significand of which only the first of the fifty-three bits is set. -/
def leading : Nat := 0x10000000000000

/-- The least exponent. -/
def minExponent : Int := -1074

/-- The greatest exponent. -/
def maxExponent : Int := 971

/-- The number nearest to a fraction; there is none if the fraction is too large. -/
def nearest? (x : Fraction) : Option Binary :=
  if x.num = 0 then some ⟨0, minExponent⟩
  else
    let exponent := max (x.logFloor 2 - 52) minExponent
    let significand := (x.dividedBy 2 exponent).round
    let found : Binary :=
      if significand = 2 * leading then ⟨leading, exponent + 1⟩ else ⟨significand, exponent⟩
    if maxExponent < found.exponent then none else some found

def value (b : Binary) : Fraction := .scaled b.significand 2 b.exponent

/-- Whether a fraction lies between the points that are half way to the neighbours of a
number. The points count if the significand is even. -/
def isNear (b : Binary) (x : Fraction) : Bool :=
  let below : Fraction :=
    if b.significand = leading && minExponent < b.exponent then
      .scaled (4 * b.significand - 1) 2 (b.exponent - 2)
    else .scaled (2 * b.significand - 1) 2 (b.exponent - 1)
  let above : Fraction := .scaled (2 * b.significand + 1) 2 (b.exponent - 1)
  if b.significand % 2 = 0 then below.le x && x.le above else below.lt x && x.lt above

/-- The numbers of so many decimal digits next to a number, with the exponent of their last
digit. -/
def neighbours (b : Binary) (digits : Nat) : List (Nat × Int) :=
  let exponent := b.value.logFloor 10 - digits + 1
  let n := (b.value.dividedBy 10 exponent).floor
  [(n, exponent), (n + 1, exponent)]

/-- The nearer one of the neighbours that stand for a number; of two equally near ones the
greater. -/
def best? (b : Binary) (digits : Nat) : Option (Nat × Int) :=
  let distance (x : Nat × Int) : Fraction := (Fraction.scaled x.1 10 x.2).distance b.value
  match (b.neighbours digits).filter fun x => b.isNear (.scaled x.1 10 x.2) with
  | [x, y] => some (if (distance x).lt (distance y) then x else y)
  | found => found.head?

/-- The fewest digits that stand for a number, with the exponent of the last digit. Seventeen
digits are always enough; the neighbour above a single nine has a zero too many. -/
def shortest (b : Binary) : Nat × Int :=
  if b.significand = 0 then (0, 0)
  else
    match (List.range' 1 17).findSome? b.best? with
    | some (10, exponent) => (1, exponent + 1)
    | some found => found
    | none => (b.value.round, 0)

end Binary

namespace Decimal

/-- The length up to which a number may reach without being too large for certain. -/
def maxLength : Int := 400

/-- The binary number that a decimal number stands for; there is none if it is too large. -/
def binary? (digits : Nat) (exponent : Int) : Option Binary :=
  let length : Int := (Nat.toDigits 10 digits).length + exponent
  if digits = 0 ∨ length < -maxLength then some ⟨0, Binary.minExponent⟩
  else if maxLength < length then none
  else Binary.nearest? (Fraction.scaled digits 10 exponent)

/-- Digits with a point, so that a given number of them stand after it. -/
def point (digits : Nat) (exponent : Int) : String :=
  let text := Nat.toDigits 10 digits
  if 0 ≤ exponent then
    String.ofList (text ++ List.replicate (if digits = 0 then 0 else exponent.toNat) '0') ++ ".0"
  else
    let places := (-exponent).toNat
    let padded := List.replicate (places + 1 - text.length) '0' ++ text
    String.ofList (padded.take (padded.length - places)) ++ "."
      ++ String.ofList (padded.drop (padded.length - places))

/-- The text of the binary number that a decimal number stands for, without an exponent. -/
def text : Decimal → String
  | infinite negative => if negative then "-inf" else "inf"
  | notANumber => "NaN"
  | finite negative digits exponent =>
    let size :=
      match binary? digits exponent with
      | none => "inf"
      | some b =>
        let (digits, exponent) := b.shortest
        point digits exponent
    if negative then "-" ++ size else size

end Decimal

end Conformance
