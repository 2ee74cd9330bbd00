import AuthShares.Bytes.LittleEndian
import AuthShares.Text.Blank

/-!
# Reading a word-sized number

Decimal digits with an optional plus sign, below `wordRange`. Digits are read from the
left: the first character that is no digit is reported, unless the digits before it
have already left the range.
-/

set_option autoImplicit false

namespace AuthShares

inductive NumberFault where
  | empty
  | invalidDigit
  | tooLarge
  deriving DecidableEq, Repr

def NumberFault.message : NumberFault → String
  | .empty => "cannot parse integer from empty string"
  | .invalidDigit => "invalid digit found in string"
  | .tooLarge => "number too large to fit in target type"

def readDigits (acc : Nat) : List Char → Except NumberFault Nat
  | [] => .ok acc
  | c :: cs =>
    if c.isDigit then
      let next := 10 * acc + (c.toNat - '0'.toNat)
      if next < wordRange then readDigits next cs else .error .tooLarge
    else
      .error .invalidDigit

def readNumber (cs : List Char) : Except NumberFault Nat :=
  match cs with
  | [] => .error .empty
  | ['+'] => .error .invalidDigit
  | '+' :: cs => readDigits 0 cs
  | cs => readDigits 0 cs

end AuthShares
