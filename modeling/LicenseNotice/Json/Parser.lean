import LicenseNotice.Datum
import LicenseNotice.Text.Digits
import LicenseNotice.Text.Reader

/-! # Reading JSON

The whole text must be one value. White space is space, tab, line feed and carriage return;
controls in a text must be escaped; repeated fields of a record are kept. Half a surrogate pair is
well-formed but leaves a value that cannot be used.
-/

namespace LicenseNotice.Json

set_option autoImplicit false

def isSpace (c : Char) : Bool :=
  c == ' ' || c == '\t' || c == '\n' || c == '\r'

def skipSpace (cs : List Char) : List Char := cs.dropWhile isSpace

/-- What a quoted text is made of: characters, and UTF-16 units escaped by number. -/
inductive TextUnit where
  | char (c : Char)
  | code (unit : Nat)
  deriving DecidableEq, Repr

def isHighSurrogate (unit : Nat) : Bool := 0xD800 ≤ unit && unit < 0xDC00

def isLowSurrogate (unit : Nat) : Bool := 0xDC00 ≤ unit && unit < 0xE000

/-- The characters spelled by the units; none if half a surrogate pair is among them. -/
def joinUnits : List TextUnit → Option (List Char)
  | [] => some []
  | .char c :: rest => (joinUnits rest).map (c :: ·)
  | .code high :: .code low :: rest =>
    if isHighSurrogate high then
      if isLowSurrogate low then
        let c := Char.ofNat (0x10000 + (high - 0xD800) * 0x400 + (low - 0xDC00))
        (joinUnits rest).map (c :: ·)
      else none
    else if isLowSurrogate high then none
    else (joinUnits (.code low :: rest)).map (Char.ofNat high :: ·)
  | .code unit :: rest =>
    if isHighSurrogate unit || isLowSurrogate unit then none
    else (joinUnits rest).map (Char.ofNat unit :: ·)

/-- The character that a backslash and `c` stand for. -/
def escaped? (c : Char) : Option Char :=
  match c with
  | '"' => some '"'
  | '\\' => some '\\'
  | '/' => some '/'
  | 'b' => some '\x08'
  | 'f' => some '\x0c'
  | 'n' => some '\n'
  | 'r' => some '\r'
  | 't' => some '\t'
  | _ => none

def units : Reader (List TextUnit)
  | [] => none
  | '"' :: rest => some ([], rest)
  | '\\' :: 'u' :: a :: b :: c :: d :: rest => do
    let unit ← Text.numberOf? 16 [a, b, c, d]
    let (later, rest) ← units rest
    some (.code unit :: later, rest)
  | '\\' :: letter :: rest => do
    let c ← escaped? letter
    let (later, rest) ← units rest
    some (.char c :: later, rest)
  | c :: rest =>
    if c.toNat < 0x20 then none
    else do
      let (later, rest) ← units rest
      some (.char c :: later, rest)

/-- A quoted text; the value is absent where half a surrogate pair is. -/
def quoted : Reader (Option String)
  | '"' :: rest => do
    let (found, rest) ← units rest
    some ((joinUnits found).map String.ofList, rest)
  | _ => none

/-- Items separated by commas, up to the closing bracket; at least one. -/
def items1 {α : Type} (close : Char) (item : Reader α) : (limit : Nat) → Reader (List α)
  | 0 => fun _ => none
  | limit + 1 => fun cs => do
    let (a, cs) ← item cs
    match skipSpace cs with
    | [] => none
    | c :: rest =>
      if c = close then some ([a], rest)
      else if c = ',' then do
        let (later, rest) ← items1 close item limit rest
        some (a :: later, rest)
      else none

/-- Items behind an opening bracket, up to the closing one. -/
def items {α : Type} (close : Char) (item : Reader α) (limit : Nat) : Reader (List α) := fun cs =>
  match skipSpace cs with
  | [] => none
  | c :: rest => if c = close then some ([], rest) else items1 close item limit cs

def digits1 : Reader (List Char) := Reader.takeWhile1 Text.isDigit

def number : Reader Datum := do
  let sign ← Reader.optional (.char '-')
  let whole ← digits1
  if whole.head? = some '0' ∧ whole.length > 1 then Reader.refuse
  let fraction ← Reader.optional do
    let point ← .char '.'
    return point :: (← digits1)
  let exponent ← Reader.optional do
    let mark ← .satisfy fun c => c == 'e' || c == 'E'
    let sign ← Reader.optional (.satisfy fun c => c == '+' || c == '-')
    return mark :: (sign.toList ++ (← digits1))
  return .scalar (String.ofList (sign.toList ++ whole ++ fraction.getD [] ++ exponent.getD []))

def word : Reader Datum :=
  (do Reader.literal "null"; return .null) <|>
  (do Reader.literal "true"; return .ofBool true) <|>
  (do Reader.literal "false"; return .ofBool false)

def recordOf (fields : List (Option String × Datum)) : Datum :=
  match fields.mapM fun (name, value) => name.map (·, value) with
  | none => .malformed
  | some fields => .record fields

def field (value : Reader Datum) : Reader (Option String × Datum) := fun cs => do
  let (name, cs) ← quoted (skipSpace cs)
  match skipSpace cs with
  | ':' :: cs => do
    let (datum, cs) ← value cs
    some ((name, datum), cs)
  | _ => none

/-- One value, white space in front of it included. `limit` bounds the items of a list and `depth`
the nesting. -/
def value (limit : Nat) : (depth : Nat) → Reader Datum
  | 0 => fun _ => none
  | depth + 1 => fun cs =>
    match skipSpace cs with
    | '"' :: rest => do
      let (text, rest) ← quoted ('"' :: rest)
      some (text.elim .malformed .text, rest)
    | '[' :: rest => do
      let (found, rest) ← items ']' (value limit depth) limit rest
      some (.list found, rest)
    | '{' :: rest => do
      let (found, rest) ← items '}' (field (value limit depth)) limit rest
      some (recordOf found, rest)
    | rest => (word <|> number) rest

/-- The value a JSON text spells. A text of `n` characters nests and lists less than `n + 1`. -/
def parse? (text : String) : Option Datum := do
  let cs := text.toList
  let bound := cs.length + 1
  let (datum, rest) ← value bound bound cs
  if (skipSpace rest).isEmpty then some datum else none

end LicenseNotice.Json
