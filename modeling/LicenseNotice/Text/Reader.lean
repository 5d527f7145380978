/-! # Readers

A reader takes a value from the front of a text and returns it with the rest, or refuses. Refusing
does not consume, so `a <|> b` tries `b` where `a` began.
-/

namespace LicenseNotice

set_option autoImplicit false

abbrev Reader (α : Type) := StateT (List Char) Option α

namespace Reader

variable {α β : Type}

def refuse : Reader α := fun _ => none

def peek? : Reader (Option Char) := fun cs => some (cs.head?, cs)

def satisfy (p : Char → Bool) : Reader Char
  | [] => none
  | c :: cs => if p c then some (c, cs) else none

def char (c : Char) : Reader Char := satisfy (· == c)

def literal (word : String) : Reader Unit := fun cs =>
  (List.isPrefixOf? word.toList cs).map ((), ·)

def takeWhile (p : Char → Bool) : Reader (List Char) := fun cs =>
  some (cs.takeWhile p, cs.dropWhile p)

def takeWhile1 (p : Char → Bool) : Reader (List Char) := do
  let first ← satisfy p
  let rest ← takeWhile p
  return first :: rest

/-- Exactly `n` characters of the class. -/
def count (n : Nat) (p : Char → Bool) : Reader (List Char) := fun cs =>
  let front := cs.take n
  if front.length = n ∧ front.all p then some (front, cs.drop n) else none

def optional (r : Reader α) : Reader (Option α) := fun cs =>
  match r cs with
  | none => some (none, cs)
  | some (a, rest) => some (some a, rest)

/-- As many values as there are, but no more than `limit`. -/
def upTo : (limit : Nat) → Reader α → Reader (List α)
  | 0, _ => fun cs => some ([], cs)
  | limit + 1, r => fun cs =>
    match r cs with
    | none => some ([], cs)
    | some (a, rest) => (upTo limit r rest).map fun (as, rest) => (a :: as, rest)

/-- As many values as there are; each takes at least one character. -/
def many (r : Reader α) : Reader (List α) := fun cs => upTo cs.length r cs

/-- The length of the text ahead, a bound for what can be read from it. -/
def ahead : Reader Nat := fun cs => some (cs.length, cs)

def atEnd : Reader Unit
  | [] => some ((), [])
  | _ :: _ => none

/-- The value of a text that the reader takes whole. -/
def whole? (r : Reader α) (text : String) : Option α :=
  match r text.toList with
  | some (a, []) => some a
  | _ => none

end Reader

end LicenseNotice
