import ConceptQuery.Text.Decimal

/-! # Numerals

A numeral is a whole number with an optional minus sign, and may go on with a fraction
behind a point and with a power of ten behind an `e`. Its value is
`digits * 10 ^ place`, with the sign in front; it is whole only if it is spelled without
fraction and power.
-/
namespace ConceptQuery

structure Numeral where
  negative : Bool
  digits : Nat
  place : Int
  isWhole : Bool
deriving DecidableEq

namespace Numeral

def isDigit (c : Char) : Bool := (Decimal.digit? c).isSome

def natural (cs : List Char) : Nat :=
  cs.foldl (fun n c => 10 * n + (Decimal.digit? c).getD 0) 0

/-- The digits behind a point at the start, and what follows them. -/
def fraction : List Char → List Char × List Char
  | '.' :: rest => rest.span isDigit
  | cs => ([], cs)

/-- The power of ten behind an `e` at the start. -/
def power : List Char → Int
  | _ :: '-' :: digits => -(natural digits : Int)
  | _ :: '+' :: digits => natural digits
  | _ :: digits => natural digits
  | [] => 0

def readUnsigned (negative : Bool) (cs : List Char) : Numeral :=
  let (whole, rest) := cs.span isDigit
  let (behind, tail) := fraction rest
  { negative
    digits := natural (whole ++ behind)
    place := power tail - behind.length
    isWhole := rest.isEmpty }

def read : List Char → Numeral
  | '-' :: cs => readUnsigned true cs
  | cs => readUnsigned false cs

end Numeral
end ConceptQuery
