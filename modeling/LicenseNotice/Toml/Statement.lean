import LicenseNotice.Toml.Number
import LicenseNotice.Toml.Text

/-! # The lines of a TOML text

A text is a list of statements: fields given by a dotted key, and headers that say which table the
following fields belong to. What the statements mean together is decided elsewhere.
-/

namespace LicenseNotice.Toml

set_option autoImplicit false

open Reader

inductive Value where
  | scalar (literal : String)
  | text (value : String)
  | array (items : List Value)
  | inline (fields : List (Key × Value))
  deriving Repr

inductive Statement where
  | field (key : Key) (value : Value)
  | table (key : Key)
  /-- The header of a further element in an array of tables. -/
  | element (key : Key)
  deriving Repr

/-- Items separated by commas up to the closing bracket, a comma after the last one allowed. -/
def arrayItems (item : Reader Value) : (limit : Nat) → Reader (List Value)
  | 0 => refuse
  | limit + 1 => do
    gap
    match ← peek? with
    | some ']' => return []
    | _ =>
      let first ← item
      gap
      match ← Reader.optional (char ',') with
      | none => return [first]
      | some _ => return first :: (← arrayItems item limit)

def field (item : Reader Value) : Reader (Key × Value) := do
  let k ← key
  let _ ← char '='
  blanks
  let value ← item
  blanks
  return (k, value)

/-- Fields separated by commas, on one line and with no comma after the last one. -/
def inlineFields (item : Reader Value) : Reader (List (Key × Value)) := do
  match ← Reader.optional (field item) with
  | none =>
    blanks
    return []
  | some first =>
    let later ← many do
      let _ ← char ','
      field item
    return first :: later

def simpleValue : Reader Value :=
  (do return Value.text (← text)) <|>
  (do return Value.scalar (← spelled (number <|> truth)))

def array (item : Reader Value) : Reader Value := do
  let _ ← char '['
  let items ← arrayItems item (← ahead)
  let _ ← char ']'
  return Value.array items

def inlineTable (item : Reader Value) : Reader Value := do
  let _ ← char '{'
  let fields ← inlineFields item
  let _ ← char '}'
  return Value.inline fields

/-- A value with at most `depth` arrays and inline tables around its innermost part. -/
def value : (depth : Nat) → Reader Value
  | 0 => simpleValue
  | depth + 1 => simpleValue <|> array (value depth) <|> inlineTable (value depth)

def header : Reader Statement :=
  (do
    literal "[["
    let k ← key
    literal "]]"
    return .element k) <|>
  (do
    literal "["
    let k ← key
    literal "]"
    return .table k)

def statement : Reader Statement := do
  match ← peek? with
  | some '[' =>
    let found ← header
    restOfLine
    return found
  | _ =>
    let (k, value) ← field (value (nestingBound - 1))
    restOfLine
    return .field k value

def line : Reader (Option Statement) := do
  blanks
  (do newline; return none) <|>
  (do comment; lineEnd; return none) <|>
  (do return some (← statement))

def statements : Reader (List Statement) := do
  let _ ← Reader.optional (char '\uFEFF')
  let lines ← many line
  blanks
  return lines.filterMap id

end LicenseNotice.Toml
