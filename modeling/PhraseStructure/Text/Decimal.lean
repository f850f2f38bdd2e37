/-!
# Decimal numbers

Digits to numbers. An optional plus sign may stand in front. Whether a number
fits a given range is for the reader of the option to say.
-/

namespace PhraseStructure.Text

def digit? (c : Char) : Option Nat :=
  if '0' ≤ c ∧ c ≤ '9' then some (c.toNat - '0'.toNat) else none

/-- Reads a row of digits after those that `value` already counts. -/
def readDigits (value : Nat) : List Char → Option Nat
  | [] => some value
  | c :: rest => (digit? c).bind fun d ↦ readDigits (10 * value + d) rest

def readNatural (text : String) : Option Nat :=
  match text.toList with
  | [] => none
  | '+' :: c :: rest => readDigits 0 (c :: rest)
  | c :: rest => readDigits 0 (c :: rest)

end PhraseStructure.Text
