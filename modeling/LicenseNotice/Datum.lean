/-! # Decoded data

JSON and TOML texts are read into one tree. The domain's fields hold texts, lists and records, so
every other scalar keeps only its spelling. A record keeps its fields in order, repeats included.
-/

namespace LicenseNotice

set_option autoImplicit false

inductive Datum where
  | null
  /-- A number, a truth value or a date, as it is spelled. -/
  | scalar (literal : String)
  /-- A value that can be skipped but not used, as a text with half a surrogate pair. -/
  | malformed
  | text (value : String)
  | list (items : List Datum)
  | record (fields : List (String × Datum))
  deriving Repr

namespace Datum

instance : Inhabited Datum := ⟨null⟩

def ofBool (b : Bool) : Datum := scalar (if b then "true" else "false")

def ofNat (n : Nat) : Datum := scalar (toString n)

/-- A record whose absent fields are left out. -/
def ofFields (fields : List (String × Option Datum)) : Datum :=
  record (fields.filterMap fun (name, value) => value.map (name, ·))

end Datum

end LicenseNotice
