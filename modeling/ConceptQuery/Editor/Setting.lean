import ConceptQuery.Text.Escaped
import ConceptQuery.Text.Numeral
import ConceptQuery.Text.Shortest

/-! # Settings as an editor sends them

Settings come as plain values of no fixed shape. Reading one as text, as a path or
as a count either gives that or says what was found in its place; an absent value
is the same as `null`.
-/
namespace ConceptQuery

inductive Setting where
  | null
  | flag (value : Bool)
  /-- A whole number of 64 bits. -/
  | integer (value : Int)
  /-- A zero has a sign too. -/
  | fraction (negative : Bool) (size : Binary)
  | text (value : String)
  | list (items : List Setting)
  | record (fields : List (String × Setting))
deriving Inhabited

/-- What a setting was read as. -/
inductive SettingShape where
  | text | path | count | wholeSection
deriving DecidableEq, Inhabited

inductive SettingFault where
  | wrongType (found : Setting) (expected : SettingShape)
  | outOfRange (value : Int) (expected : SettingShape)
  | tooLong (length : Nat)
deriving Inhabited

def SettingShape.description : SettingShape → String
  | text => "a string"
  | path => "path string"
  | count => "usize"
  | wholeSection => "struct Settings"

namespace Setting

/-- The largest count of 64 bits. -/
def maxCount : Nat := 18446744073709551615

/-- The least whole number that is kept as one. -/
def minInteger : Int := -9223372036854775808

/-- A whole number beyond 64 bits is kept as a fraction, and so is a zero with a
sign, which no whole number has. -/
def ofNumeral (n : Numeral) : Setting :=
  let value : Int := if n.negative then -(n.digits : Int) else n.digits
  let isNegativeZero := n.negative && n.digits = 0
  if n.isWhole && !isNegativeZero && minInteger ≤ value && value ≤ maxCount then .integer value
  else .fraction n.negative (Binary.ofDecimal n.digits n.place)

def fractionText (negative : Bool) (size : Binary) : String :=
  (if negative then "-" else "") ++ Shortest.text size

/-- How a message names a value that did not fit. -/
def description : Setting → String
  | null => "null"
  | flag b => "boolean `" ++ (if b then "true" else "false") ++ "`"
  | integer n => "integer `" ++ toString n ++ "`"
  | fraction negative size => "floating point `" ++ fractionText negative size ++ "`"
  | text s => "string " ++ Text.escaped s
  | list _ => "sequence"
  | record _ => "map"

def isNull : Setting → Bool
  | null => true
  | _ => false

/-- A field of a record; other values have none. -/
def field? : Setting → String → Option Setting
  | record fields, name => (fields.find? fun f => f.1 = name).map Prod.snd
  | _, _ => none

def readText (shape : SettingShape) : Setting → Except SettingFault (Option String)
  | null => .ok none
  | text s => .ok (some s)
  | other => .error (.wrongType other shape)

def readCount : Setting → Except SettingFault (Option Nat)
  | null => .ok none
  | integer n => if n < 0 then .error (.outOfRange n .count) else .ok (some n.toNat)
  | other => .error (.wrongType other .count)

end Setting

def SettingFault.message : SettingFault → String
  | wrongType found expected =>
    "invalid type: " ++ found.description ++ ", expected " ++ expected.description
  | outOfRange n expected =>
    "invalid value: " ++ (Setting.integer n).description ++ ", expected " ++ expected.description
  | tooLong length =>
    "invalid length " ++ toString length ++ ", expected fewer elements in array"

end ConceptQuery
