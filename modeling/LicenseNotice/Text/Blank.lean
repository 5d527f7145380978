/-! # White space and trimming

Trimming is of Unicode's White_Space property, which is wider than `Char.isWhitespace` and does not
hold the zero-width characters. Texts are handled as lists of characters; the versions on `String`
wrap them.
-/

namespace LicenseNotice.Text

set_option autoImplicit false

/-- The code points with the White_Space property, as inclusive ranges. -/
def whiteSpace : List (Nat × Nat) :=
  [(0x09, 0x0D), (0x20, 0x20), (0x85, 0x85), (0xA0, 0xA0), (0x1680, 0x1680), (0x2000, 0x200A),
    (0x2028, 0x2029), (0x202F, 0x202F), (0x205F, 0x205F), (0x3000, 0x3000)]

def isBlankChar (c : Char) : Bool :=
  whiteSpace.any fun range => range.1 ≤ c.toNat && c.toNat ≤ range.2

/-- Drops the longest ending of characters in the class. -/
def dropEnd (p : Char → Bool) (cs : List Char) : List Char :=
  (cs.reverse.dropWhile p).reverse

def trimBy (p : Char → Bool) (cs : List Char) : List Char :=
  dropEnd p (cs.dropWhile p)

def trim (s : String) : String :=
  String.ofList (trimBy isBlankChar s.toList)

def isBlank (s : String) : Bool :=
  s.toList.all isBlankChar

/-- The trimmed text, if anything is left of it. -/
def trimmed? (s : String) : Option String :=
  if isBlank s then none else some (trim s)

end LicenseNotice.Text
