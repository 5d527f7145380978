import LicenseNotice.Datum

/-! # JSON texts

Two layouts of one printer: the compact one has no white space, the pretty one breaks lines and
indents by two. Only quotes, backslashes and controls are escaped.
-/

namespace LicenseNotice.Json

set_option autoImplicit false

structure Layout where
  /-- What stands before an item that is `depth` levels deep. -/
  lineBreak : (depth : Nat) → List Char
  colon : List Char

def Layout.compact : Layout := ⟨fun _ => [], [':']⟩

def Layout.pretty : Layout := ⟨fun depth => '\n' :: List.replicate (2 * depth) ' ', [':', ' ']⟩

def hexDigit (n : Nat) : Char :=
  if n < 10 then Char.ofNat (0x30 + n) else Char.ofNat (0x61 + (n - 10))

/-- The spelling of a character inside a quoted text. -/
def escape (c : Char) : List Char :=
  match c with
  | '"' => ['\\', '"']
  | '\\' => ['\\', '\\']
  | '\x08' => ['\\', 'b']
  | '\t' => ['\\', 't']
  | '\n' => ['\\', 'n']
  | '\x0c' => ['\\', 'f']
  | '\r' => ['\\', 'r']
  | c =>
    if c.toNat < 0x20 then
      ['\\', 'u', '0', '0', hexDigit (c.toNat / 16), hexDigit (c.toNat % 16)]
    else [c]

def quote (cs : List Char) : List Char :=
  '"' :: (cs.flatMap escape ++ ['"'])

/-- Pieces between brackets, separated by commas, each on a line of the layout. -/
def enclose (layout : Layout) (depth : Nat) (left right : Char) :
    List (List Char) → List Char
  | [] => [left, right]
  | pieces@(_ :: _) =>
    let lineBreak := layout.lineBreak (depth + 1)
    left :: (lineBreak ++ (',' :: lineBreak).intercalate pieces ++
      layout.lineBreak depth ++ [right])

mutual

def print (layout : Layout) (depth : Nat) : Datum → List Char
  | .null => "null".toList
  | .scalar literal => literal.toList
  | .malformed => "null".toList
  | .text value => quote value.toList
  | .list items => enclose layout depth '[' ']' (printItems layout (depth + 1) items)
  | .record fields => enclose layout depth '{' '}' (printFields layout (depth + 1) fields)

def printItems (layout : Layout) (depth : Nat) : List Datum → List (List Char)
  | [] => []
  | item :: rest => print layout depth item :: printItems layout depth rest

def printFields (layout : Layout) (depth : Nat) : List (String × Datum) → List (List Char)
  | [] => []
  | (name, value) :: rest =>
    (quote name.toList ++ layout.colon ++ print layout depth value) ::
      printFields layout depth rest

end

def compact (d : Datum) : String := String.ofList (print .compact 0 d)

def pretty (d : Datum) : String := String.ofList (print .pretty 0 d)

end LicenseNotice.Json
