/-! Decimal numerals that must fit into 64 bits. A numeral is an optional plus sign and at least one
digit; leading zeros are allowed. Digits are read from left to right and the first problem met is
the one reported. -/
namespace TableLang.Text

inductive NumeralError where
  | empty
  | invalidDigit
  | tooLarge
deriving DecidableEq

namespace NumeralError

def message : NumeralError → String
  | empty => "cannot parse integer from empty string"
  | invalidDigit => "invalid digit found in string"
  | tooLarge => "number too large to fit in target type"

end NumeralError

def maxNumeral : Nat := 0xffffffffffffffff

def digit? (c : Char) : Option Nat :=
  if '0' ≤ c ∧ c ≤ '9' then some (c.toNat - '0'.toNat) else none

/-- Reads digits on top of the value `acc`. A character that is no digit is noticed before the
value at that character is. -/
def readDigits (acc : Nat) : List Char → Except NumeralError Nat
  | [] => .ok acc
  | c :: cs =>
    match digit? c with
    | none => .error .invalidDigit
    | some d => if acc * 10 + d ≤ maxNumeral then readDigits (acc * 10 + d) cs else .error .tooLarge

def readNumeral : List Char → Except NumeralError Nat
  | [] => .error .empty
  | ['+'] => .error .invalidDigit
  | '+' :: digits => readDigits 0 digits
  | digits => readDigits 0 digits

end TableLang.Text
