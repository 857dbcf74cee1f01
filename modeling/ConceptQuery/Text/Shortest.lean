import ConceptQuery.Text.Binary

/-! # The shortest decimal of a binary number

A binary number is written with the fewest digits that read back as that number; of
two such decimals the nearer one is taken, and on a tie the even one. All comparisons
are exact, on natural numbers.
-/
namespace ConceptQuery.Shortest

/-- Orders `a * 2 ^ p` and `b * 10 ^ q`. -/
def compareScaled (a : Nat) (p : Int) (b : Nat) (q : Int) : Ordering :=
  compare (a * twos p * tens (-q)) (b * tens q * twos (-p))

/-- Whether `digits * 10 ^ place` reads back as the number: it lies between the
midpoints to both neighbours, or on one of them if the mantissa is even. Below a
power of two the neighbour is half as far away. -/
def readsBack (x : Binary) (digits : Nat) (place : Int) : Bool :=
  let unit := x.exponent - 2
  let gap :=
    if x.mantissa = Binary.mantissaBound / 2 && x.exponent ≠ Binary.leastExponent then 1 else 2
  let below := compareScaled (4 * x.mantissa - gap) unit digits place
  let above := compareScaled (4 * x.mantissa + 2) unit digits place
  (below == .lt || (below == .eq && x.mantissa % 2 = 0)) &&
    (above == .gt || (above == .eq && x.mantissa % 2 = 0))

/-- The number in whole units of `10 ^ place`, rounded down. -/
def floorAt (x : Binary) (place : Int) : Nat :=
  (x.mantissa * twos x.exponent * tens (-place)) / (tens place * twos (-x.exponent))

/-- The nearer of the decimals `low` and `low + 1` at a place. -/
def nearer (x : Binary) (low : Nat) (place : Int) : Nat :=
  match compareScaled (2 * x.mantissa) x.exponent (2 * low + 1) place with
  | .lt => low
  | .gt => low + 1
  | .eq => if low % 2 = 0 then low else low + 1

/-- The decimal at one place that reads back, if one does. -/
def atPlace? (x : Binary) (place : Int) : Option Nat :=
  let low := floorAt x place
  match readsBack x low place, readsBack x (low + 1) place with
  | true, true => some (nearer x low place)
  | true, false => some low
  | false, true => some (low + 1)
  | false, false => none

/-- Tries places from coarse to fine. -/
def search (x : Binary) : (fuel : Nat) → (place : Int) → Nat × Int
  | 0, place => (floorAt x place, place)
  | fuel + 1, place =>
    match atPlace? x place with
    | some digits => (digits, place)
    | none => search x fuel (place - 1)

/-- Places run from above the greatest number down to below the least one. -/
def decimal (x : Binary) : Nat × Int :=
  if x.mantissa = 0 then (0, 0) else search x 650 310

/-- Writes `digits * 10 ^ place` without an exponent and with at least one digit
behind the point. -/
def positional (digits : Nat) (place : Int) : String :=
  let ds := (toString digits).toList
  if 0 ≤ place then String.ofList (ds ++ List.replicate place.toNat '0') ++ ".0"
  else
    let behind := (-place).toNat
    let padded := List.replicate (behind + 1 - ds.length) '0' ++ ds
    let whole := padded.length - behind
    String.ofList (padded.take whole ++ '.' :: padded.drop whole)

/-- Writes digits with the point behind the first one and the power of ten that is
then meant. -/
def scientific (digits : Nat) (place : Int) : String :=
  match (toString digits).toList with
  | [] => ""
  | first :: rest =>
    let power := place + rest.length
    String.ofList (first :: (if rest.isEmpty then [] else '.' :: rest)) ++
      (if power < 0 then "e-" else "e+") ++ toString power.natAbs

/-- Numbers from `10 ^ -5` up to `10 ^ 16` have no exponent. -/
def text (x : Binary) : String :=
  let (digits, place) := decimal x
  let ahead := place + (toString digits).length
  if -5 < ahead && ahead ≤ 16 then positional digits place else scientific digits place

end ConceptQuery.Shortest
