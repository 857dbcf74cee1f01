/-! # Binary numbers of 53 digits

Numbers `mantissa * 2 ^ exponent` with a mantissa below `2 ^ 53`. Products and quotients
are computed exactly and rounded once, to the nearest number and on a tie to the even
mantissa.
-/
namespace ConceptQuery

/-- A power of two; an exponent below zero counts as zero. -/
def twos (exponent : Int) : Nat :=
  Nat.pow 2 exponent.toNat

/-- A power of ten; an exponent below zero counts as zero. -/
def tens (exponent : Int) : Nat :=
  Nat.pow 10 exponent.toNat

structure Binary where
  mantissa : Nat
  exponent : Int
deriving DecidableEq, Inhabited

namespace Binary

def mantissaBound : Nat := Nat.pow 2 53

def leastExponent : Int := -1074

def zero : Binary := ⟨0, leastExponent⟩

/-- The quotient of two numbers, rounded to the nearest; ties go to the even one. -/
def roundDiv (num den : Nat) : Nat :=
  let q := num / den
  let twice := 2 * (num % den)
  if twice < den || (twice = den && q % 2 = 0) then q else q + 1

/-- `num / den` in units of `2 ^ exponent`. -/
def inUnits (num den : Nat) (exponent : Int) : Nat :=
  roundDiv (num * twos (-exponent)) (den * twos exponent)

/-- The number nearest to `num / den`, for a positive fraction. A quotient of two
logarithms is off by at most one, so the unit is the guess or twice that. -/
def nearest (num den : Nat) : Binary :=
  let guess : Int := max leastExponent ((num.log2 : Int) - (den.log2 : Int) - 53)
  let fitted (exponent : Int) : Binary := ⟨inUnits num den exponent, exponent⟩
  if (fitted guess).mantissa < mantissaBound then fitted guess
  else if (fitted (guess + 1)).mantissa < mantissaBound then fitted (guess + 1)
  else ⟨mantissaBound / 2, guess + 2⟩

/-- With `denominator`, the number as a fraction of natural numbers. -/
def numerator (x : Binary) : Nat := x.mantissa * twos x.exponent

def denominator (x : Binary) : Nat := twos (-x.exponent)

def mul (x y : Binary) : Binary :=
  nearest (x.numerator * y.numerator) (x.denominator * y.denominator)

/-- The quotient by a number that is not zero. -/
def div (x y : Binary) : Binary :=
  nearest (x.numerator * y.denominator) (x.denominator * y.numerator)

/-- The number nearest to a power of ten. -/
def powerOfTen (place : Int) : Binary := nearest (tens place) 1

/-- The greatest power of ten that is used as one factor. -/
def greatestPlace : Int := 308

/-- Moves the decimal point by a power of ten, with one rounding or, far to the left,
with two. -/
def scale (x : Binary) (place : Int) : Binary :=
  if 0 ≤ place then x.mul (powerOfTen place)
  else if -greatestPlace ≤ place then x.div (powerOfTen (-place))
  else if -2 * greatestPlace ≤ place then
    (x.div (powerOfTen greatestPlace)).div (powerOfTen (-place - greatestPlace))
  else zero

/-- Digits are kept from the left as long as 64 bits hold them. -/
def keepDigits : (fuel : Nat) → Nat → Int → Nat × Int
  | 0, digits, place => (digits, place)
  | fuel + 1, digits, place =>
    if digits < 18446744073709551616 then (digits, place)
    else keepDigits fuel (digits / 10) (place + 1)

/-- Reads `digits * 10 ^ place`: the digits are rounded first, then scaled. -/
def ofDecimal (digits : Nat) (place : Int) : Binary :=
  match keepDigits (digits.log2 + 1) digits place with
  | (0, _) => zero
  | (kept, place) => (nearest kept 1).scale place

end Binary
end ConceptQuery
