/-! # Digits

The value of a digit string in a base up to sixteen, for numbers and for characters given by number.
-/

namespace LicenseNotice.Text

set_option autoImplicit false

def isDigit (c : Char) : Bool := '0' ≤ c && c ≤ '9'

/-- The value of a digit of either case. -/
def hexValue? (c : Char) : Option Nat :=
  if '0' ≤ c ∧ c ≤ '9' then some (c.toNat - 0x30)
  else if 'a' ≤ c ∧ c ≤ 'f' then some (c.toNat - 0x61 + 10)
  else if 'A' ≤ c ∧ c ≤ 'F' then some (c.toNat - 0x41 + 10)
  else none

def isDigitIn (base : Nat) (c : Char) : Bool :=
  match hexValue? c with
  | none => false
  | some n => n < base

def numberOf? (base : Nat) (digits : List Char) : Option Nat :=
  digits.foldlM (fun n digit => (hexValue? digit).map (base * n + ·)) 0

end LicenseNotice.Text
