/-! # Reading decimal counts

A count is a decimal number below 2 ^ 64, with an optional plus sign. The digits
are read from the left and the first one that cannot be taken decides the error.
-/
namespace ConceptQuery.Decimal

inductive ReadError where
  | empty
  | invalidDigit
  | tooLarge
deriving DecidableEq

def ReadError.message : ReadError → String
  | .empty => "cannot parse integer from empty string"
  | .invalidDigit => "invalid digit found in string"
  | .tooLarge => "number too large to fit in target type"

def bound : Nat := 18446744073709551616

def digit? (c : Char) : Option Nat :=
  if '0' ≤ c ∧ c ≤ '9' then some (c.toNat - '0'.toNat) else none

def readDigits : Nat → List Char → Except ReadError Nat
  | value, [] => .ok value
  | value, c :: rest =>
    match digit? c with
    | none => .error .invalidDigit
    | some d => if value * 10 + d < bound then readDigits (value * 10 + d) rest else .error .tooLarge

def read (text : String) : Except ReadError Nat :=
  match text.toList with
  | [] => .error .empty
  | ['+'] => .error .invalidDigit
  | '+' :: digits => readDigits 0 digits
  | digits => readDigits 0 digits

end ConceptQuery.Decimal
