import LicenseNotice.Text.Digits
import LicenseNotice.Text.Reader

/-! # Numbers and dates in TOML

No field of the domain takes a number or a date, so a literal is only checked: the form of the
digits, the range of 64-bit integers, floats that would become positively infinite, and the ranges
of the parts of dates and times.
-/

namespace LicenseNotice.Toml

set_option autoImplicit false

open Reader

/-- Digits of the class, single underscores between them left out. -/
def digitGroup (p : Char → Bool) : Reader (List Char) := do
  let first ← satisfy p
  let rest ← many (satisfy p <|> (do let _ ← char '_'; satisfy p))
  return first :: rest

def sign : Reader (Option Char) :=
  Reader.optional (satisfy fun c => c == '+' || c == '-')

/-- A decimal number has no zero in front of other digits. -/
def decimalDigits : Reader (List Char) := do
  match ← peek? with
  | some '0' => return [← char '0']
  | _ => digitGroup Text.isDigit

/-- The least number that the nearest 64-bit float does not reach: halfway from the largest one to
the next power of two. -/
def floatBound : Nat := Nat.pow 2 1024 - Nat.pow 2 970

/-- Whether `mantissa * 10 ^ exponent` is too large for a 64-bit float. -/
def exceedsFloat (mantissa : Nat) (exponent : Int) : Bool :=
  if mantissa = 0 then false
  else
    let magnitude : Int := (Nat.toDigits 10 mantissa).length + exponent
    if magnitude > 310 then true
    else if magnitude < 300 then false
    else if exponent ≥ 0 then mantissa * Nat.pow 10 exponent.toNat ≥ floatBound
    else mantissa ≥ floatBound * Nat.pow 10 (-exponent).toNat

def fraction : Reader (List Char) := do
  let _ ← char '.'
  digitGroup Text.isDigit

def exponent : Reader Int := do
  let _ ← satisfy fun c => c == 'e' || c == 'E'
  let mark ← sign
  let digits ← digitGroup Text.isDigit
  let n := (Text.numberOf? 10 digits).getD 0
  return if mark = some '-' then -n else n

def special : Reader Unit := do
  let _ ← sign
  literal "inf" <|> literal "nan"

def decimalFloat : Reader Unit := do
  let mark ← sign
  let whole ← decimalDigits
  let (part, power) ←
    (do return ([], ← exponent)) <|>
    (do
      let part ← fraction
      let power ← Reader.optional exponent
      return (part, power.getD 0))
  let mantissa := (Text.numberOf? 10 (whole ++ part)).getD 0
  if mark ≠ some '-' ∧ exceedsFloat mantissa (power - part.length) then refuse

def float : Reader Unit := decimalFloat <|> special

/-- No 64-bit integer has this magnitude, but for the negative one. -/
def integerBound : Nat := Nat.pow 2 63

/-- An integer in another base has no sign. -/
def based (mark : String) (base : Nat) : Reader Unit := do
  literal mark
  let digits ← digitGroup (Text.isDigitIn base)
  if (Text.numberOf? base digits).getD 0 ≥ integerBound then refuse

def decimalInteger : Reader Unit := do
  let mark ← sign
  let digits ← decimalDigits
  let n := (Text.numberOf? 10 digits).getD 0
  if mark = some '-' then
    if n > integerBound then refuse
  else
    if n ≥ integerBound then refuse

def integer : Reader Unit :=
  based "0x" 16 <|> based "0o" 8 <|> based "0b" 2 <|> decimalInteger

/-- A number of exactly `width` digits within a range. -/
def part (width low high : Nat) : Reader Nat := do
  let digits ← count width Text.isDigit
  let n := (Text.numberOf? 10 digits).getD 0
  if n < low ∨ high < n then refuse else return n

def isLeapYear (year : Nat) : Bool :=
  year % 4 == 0 && (year % 100 != 0 || year % 400 == 0)

def daysIn (year month : Nat) : Nat :=
  if month = 2 then (if isLeapYear year then 29 else 28)
  else if month = 4 ∨ month = 6 ∨ month = 9 ∨ month = 11 then 30
  else 31

def date : Reader Unit := do
  let year ← part 4 0 9999
  let _ ← char '-'
  let month ← part 2 1 12
  let _ ← char '-'
  let _ ← part 2 1 (daysIn year month)

def time : Reader Unit := do
  let _ ← part 2 0 23
  let _ ← char ':'
  let _ ← part 2 0 59
  let _ ← char ':'
  let _ ← part 2 0 60
  let _ ← Reader.optional do
    let _ ← char '.'
    takeWhile1 Text.isDigit

def offset : Reader Unit :=
  (do let _ ← satisfy fun c => c == 'Z' || c == 'z') <|>
  (do
    let _ ← satisfy fun c => c == '+' || c == '-'
    let _ ← part 2 0 23
    let _ ← char ':'
    let _ ← part 2 0 59)

def dateTime : Reader Unit :=
  (do
    date
    let _ ← Reader.optional do
      let _ ← satisfy fun c => c == 'T' || c == 't' || c == ' '
      time
      let _ ← Reader.optional offset) <|>
  time

def number : Reader Unit := dateTime <|> float <|> integer

def truth : Reader Unit := literal "true" <|> literal "false"

/-- A literal together with its spelling. -/
def spelled (r : Reader Unit) : Reader String := fun cs =>
  (r cs).map fun ((), rest) => (String.ofList (cs.take (cs.length - rest.length)), rest)

end LicenseNotice.Toml
