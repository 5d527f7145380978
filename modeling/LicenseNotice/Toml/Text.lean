import LicenseNotice.Text.Digits
import LicenseNotice.Text.Reader

/-! # Texts, keys and white space in TOML

Basic texts know escapes, literal texts do not; both exist on one line and on several. A line feed
may be written with a carriage return before it, which is left out of texts.
-/

namespace LicenseNotice.Toml

set_option autoImplicit false

open Reader

def isBlank (c : Char) : Bool := c == ' ' || c == '\t'

/-- What a comment may hold. -/
def isPrintable (c : Char) : Bool :=
  c == '\t' || (0x20 ≤ c.toNat && c.toNat ≤ 0x7E) || 0x80 ≤ c.toNat

def isBasicChar (c : Char) : Bool := isPrintable c && c != '"' && c != '\\'

def isLiteralChar (c : Char) : Bool := isPrintable c && c != '\''

def blanks : Reader Unit := do
  let _ ← takeWhile isBlank

def newline : Reader Unit := literal "\n" <|> literal "\r\n"

def comment : Reader Unit := do
  let _ ← char '#'
  let _ ← takeWhile isPrintable

/-- Blanks, line ends and comments, as between the items of an array. -/
def gap : Reader Unit := do
  let _ ← many ((do let _ ← satisfy isBlank) <|> newline <|> (do comment; newline))

def lineEnd : Reader Unit := newline <|> atEnd

/-- What may stand behind a statement on its line. -/
def restOfLine : Reader Unit := do
  blanks
  let _ ← Reader.optional comment
  lineEnd

/-- A character given by `digits` hexadecimal digits. -/
def numbered (digits : Nat) : Reader Char := do
  let found ← count digits (Text.isDigitIn 16)
  let n := (Text.numberOf? 16 found).getD 0
  if n < 0xD800 ∨ (0xE000 ≤ n ∧ n < 0x110000) then return Char.ofNat n else refuse

def escape : Reader Char := do
  let _ ← char '\\'
  match ← satisfy fun _ => true with
  | 'b' => return '\x08'
  | 't' => return '\t'
  | 'n' => return '\n'
  | 'f' => return '\x0c'
  | 'r' => return '\r'
  | '"' => return '"'
  | '\\' => return '\\'
  | 'u' => numbered 4
  | 'U' => numbered 8
  | _ => refuse

def basicText : Reader String := do
  let _ ← char '"'
  let found ← many (satisfy isBasicChar <|> escape)
  let _ ← char '"'
  return String.ofList found

def literalText : Reader String := do
  let _ ← char '\''
  let found ← takeWhile isLiteralChar
  let _ ← char '\''
  return String.ofList found

/-- A backslash at the end of a line takes away the white space up to the next text. -/
def escapedLineEnd : Reader Unit := do
  let _ ← char '\\'
  blanks
  newline
  let _ ← many ((do let _ ← satisfy isBlank) <|> newline)

def longBasicPiece : Reader (List Char) :=
  takeWhile1 isBasicChar <|>
  (do escapedLineEnd; return []) <|>
  (do return [← escape]) <|>
  (do newline; return ['\n'])

def longLiteralPiece : Reader (List Char) :=
  takeWhile1 isLiteralChar <|>
  (do newline; return ['\n'])

/-- One or two quotes inside a text on several lines. -/
def innerQuotes (quote : Char) : Reader (List Char) := do
  let run ← takeWhile1 (· == quote)
  if run.length ≤ 2 then return run else refuse

/-- The three quotes that close a text on several lines, behind up to two that belong to it. -/
def closingQuotes (quote : Char) : Reader (List Char) := do
  let run ← takeWhile1 (· == quote)
  if 3 ≤ run.length ∧ run.length ≤ 5 then return run.drop 3 else refuse

/-- A text on several lines; a line end right behind the opening quotes is left out. -/
def longText (quote : Char) (piece : Reader (List Char)) : Reader String := do
  literal (String.ofList [quote, quote, quote])
  let _ ← Reader.optional newline
  let pieces ← many (piece <|> innerQuotes quote)
  let last ← closingQuotes quote
  return String.ofList (pieces.flatten ++ last)

def text : Reader String :=
  longText '"' longBasicPiece <|> basicText <|>
  longText '\'' longLiteralPiece <|> literalText

def isBareKeyChar (c : Char) : Bool :=
  c.isAlphanum || c == '-' || c == '_'

def simpleKey : Reader String :=
  basicText <|> literalText <|> (do return String.ofList (← takeWhile1 isBareKeyChar))

/-- A dotted key: the names above the last one, and the last one. -/
structure Key where
  parents : List String
  name : String
  deriving DecidableEq, Repr

/-- No key has this many parts, and no value is nested this deep. -/
def nestingBound : Nat := 80

def key : Reader Key := do
  blanks
  let first ← simpleKey
  blanks
  let later ← many do
    let _ ← char '.'
    blanks
    let part ← simpleKey
    blanks
    return part
  let parts := first :: later
  if parts.length < nestingBound then
    return ⟨parts.dropLast, parts.getLastD first⟩
  else
    refuse

end LicenseNotice.Toml
