import LicenseNotice.Datum

/-! # Reading records from data

A record may be written with named fields or as the list of its fields in declared order. Unknown
fields are skipped unless the record is closed; a known field must not repeat; no value is turned
into one of another kind. JSON and TOML differ in two points, which a dialect states.
-/

namespace LicenseNotice.Codec

set_option autoImplicit false

variable {α : Type}

structure Dialect where
  /-- Whether a list may hold more items than the record has fields. -/
  extraItems : Bool
  /-- Whether a name with this payload is as good as the bare name. -/
  emptyPayload : Datum → Bool

namespace Dialect

def json : Dialect where
  extraItems := false
  emptyPayload
    | .null => true
    | _ => false

def toml : Dialect where
  extraItems := true
  emptyPayload
    | .list [] => true
    | .record [] => true
    | _ => false

end Dialect

structure Fields where
  entries : List (String × Datum)
  /-- Whether the record was written as a list. -/
  byPosition : Bool

namespace Fields

/-- The fields among `names` that a datum gives; a closed record admits no others. -/
def of? (dialect : Dialect) (names : List String) (closed : Bool) : Datum → Option Fields
  | .record fields =>
    let known := fields.filter fun field => names.contains field.1
    if closed ∧ known.length < fields.length then none
    else if (known.map (·.1)).Nodup then some ⟨known, false⟩
    else none
  | .list items =>
    if items.length ≤ names.length ∨ dialect.extraItems then some ⟨names.zip items, true⟩
    else none
  | _ => none

def get? (fields : Fields) (name : String) : Option Datum := fields.entries.lookup name

def required (fields : Fields) (name : String) (read : Datum → Option α) : Option α :=
  (fields.get? name).bind read

/-- A field that is `fallback` where it is not given. -/
def orElse (fields : Fields) (name : String) (read : Datum → Option α) (fallback : α) :
    Option α :=
  match fields.get? name with
  | none => some fallback
  | some datum => read datum

def nullable (read : Datum → Option α) : Datum → Option (Option α)
  | .null => some none
  | datum => (read datum).map some

def optional (fields : Fields) (name : String) (read : Datum → Option α) : Option (Option α) :=
  fields.orElse name (nullable read) none

/-- An optional field that has a place of its own in the list form. -/
def placed (fields : Fields) (name : String) (read : Datum → Option α) : Option (Option α) :=
  if fields.byPosition then fields.required name (nullable read) else fields.optional name read

end Fields

def text? : Datum → Option String
  | .text value => some value
  | _ => none

def listOf? (read : Datum → Option α) : Datum → Option (List α)
  | .list items => items.mapM read
  | _ => none

theorem listOf?_map (read : Datum → Option α) (write : α → Datum)
    (h : ∀ a, read (write a) = some a) (as : List α) :
    listOf? read (.list (as.map write)) = some as := by
  rw [listOf?]
  induction as with
  | nil => rfl
  | cons a rest ih =>
    rw [List.map_cons, List.mapM_cons, h, ih]
    rfl

/-- One of a set of names, bare or as the only field of a record with an empty payload. -/
def choice? (dialect : Dialect) (ofName? : String → Option α) : Datum → Option α
  | .text name => ofName? name
  | .record [(name, payload)] => if dialect.emptyPayload payload then ofName? name else none
  | _ => none

def optionalText (value : Option String) : Option Datum := value.map .text

end LicenseNotice.Codec
