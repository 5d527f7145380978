import LicenseNotice.Datum
import LicenseNotice.Keyed
import LicenseNotice.Toml.Statement

/-! # What the statements of a TOML text mean

The tables are built statement by statement. A table may be opened by its own header once, even
after headers of tables inside it; a table made by dotted keys is closed to headers and one made by
a header is closed to dotted keys; a value is closed to both. Fields keep the order in which they
come about.
-/

namespace LicenseNotice.Toml

set_option autoImplicit false

inductive Origin where
  | header
  /-- By the header of a table inside it. -/
  | implied
  | dotted
  deriving DecidableEq, Repr

inductive Node where
  | value (datum : Datum)
  | table (origin : Origin) (fields : List (String × Node))
  /-- An array of tables, each opened by a header. -/
  | elements (tables : List (List (String × Node)))

abbrev Fields := List (String × Node)

/-- Descends along `path`, making the tables that are missing, and changes the one at its end. An
array of tables stands for its last element. `made` is the origin of new tables; dotted keys may
not pass a table that has a header. -/
def changeAt {α : Type} (made : Origin) (change : Origin → Fields → Option (Fields × α)) :
    List String → Origin → Fields → Option (Fields × α)
  | [], origin, fields => change origin fields
  | name :: path, _, fields =>
    match Keyed.get? name fields with
    | none => do
      let (inner, a) ← changeAt made change path made []
      some (fields ++ [(name, .table made inner)], a)
    | some (.value _) => none
    | some (.table origin inner) =>
      if made = .dotted ∧ origin = .header then none
      else do
        let (inner, a) ← changeAt made change path origin inner
        some (Keyed.put name (.table origin inner) fields, a)
    | some (.elements tables) => do
      let last ← tables.getLast?
      let (last, a) ← changeAt made change path .header last
      some (Keyed.put name (.elements (tables.dropLast ++ [last])) fields, a)

def assign (key : Key) (datum : Datum) (fields : Fields) : Option Fields := do
  let change (origin : Origin) (fields : Fields) : Option (Fields × Unit) :=
    if (origin = .dotted) = key.parents.isEmpty then none
    else if Keyed.contains key.name fields then none
    else some (fields ++ [(key.name, .value datum)], ())
  let (fields, ()) ← changeAt .dotted change key.parents .header fields
  return fields

mutual

def Node.toDatum : Node → Datum
  | .value datum => datum
  | .table _ fields => .record (fieldsToData fields)
  | .elements tables => .list (tablesToData tables)

def fieldsToData : List (String × Node) → List (String × Datum)
  | [] => []
  | (name, node) :: rest => (name, node.toDatum) :: fieldsToData rest

def tablesToData : List (List (String × Node)) → List Datum
  | [] => []
  | fields :: rest => .record (fieldsToData fields) :: tablesToData rest

end

mutual

/-- The datum of a value, unless the fields of an inline table contradict each other. -/
def Value.toDatum? : Value → Option Datum
  | .scalar literal => some (.scalar literal)
  | .text value => some (.text value)
  | .array items => (itemsToData? items).map .list
  | .inline fields => (inlineToFields? fields []).map fun fields => .record (fieldsToData fields)

def itemsToData? : List Value → Option (List Datum)
  | [] => some []
  | item :: rest => do
    let datum ← item.toDatum?
    let data ← itemsToData? rest
    return datum :: data

def inlineToFields? : List (Key × Value) → Fields → Option Fields
  | [], made => some made
  | (key, value) :: rest, made => do
    let datum ← value.toDatum?
    let made ← assign key datum made
    inlineToFields? rest made

end

/-- Where the table under construction belongs. -/
inductive Place where
  | root
  | table (key : Key)
  | element (key : Key)
  deriving Repr

/-- The finished tables and the one under construction. -/
structure Draft where
  root : Fields := []
  place : Place := .root
  current : Fields := []

namespace Draft

/-- Puts the table under construction in its place. -/
def finish (draft : Draft) : Option Fields :=
  match draft.place with
  | .root => some draft.current
  | .table key => do
    let change (_ : Origin) (fields : Fields) : Option (Fields × Unit) :=
      if Keyed.contains key.name fields then none
      else some (fields ++ [(key.name, .table .header draft.current)], ())
    let (root, ()) ← changeAt .implied change key.parents .header draft.root
    return root
  | .element key => do
    let change (_ : Origin) (fields : Fields) : Option (Fields × Unit) :=
      match Keyed.get? key.name fields with
      | some (.elements tables) =>
        some (Keyed.put key.name (.elements (tables ++ [draft.current])) fields, ())
      | _ => none
    let (root, ()) ← changeAt .implied change key.parents .header draft.root
    return root

/-- Takes out a table that so far was only implied, to go on with it under its own header. -/
def openTable (key : Key) (root : Fields) : Option Draft := do
  let change (_ : Origin) (fields : Fields) : Option (Fields × Fields) :=
    match Keyed.get? key.name fields with
    | none => some (fields, [])
    | some (.table .implied inner) =>
      some (fields.filter fun field => field.1 ≠ key.name, inner)
    | some _ => none
  let (root, current) ← changeAt .implied change key.parents .header root
  return ⟨root, .table key, current⟩

def openElement (key : Key) (root : Fields) : Option Draft := do
  let change (_ : Origin) (fields : Fields) : Option (Fields × Unit) :=
    match Keyed.get? key.name fields with
    | none => some (fields ++ [(key.name, .elements [])], ())
    | some (.elements _) => some (fields, ())
    | some _ => none
  let (root, ()) ← changeAt .implied change key.parents .header root
  return ⟨root, .element key, []⟩

def add (draft : Draft) : Statement → Option Draft
  | .field key value => do
    let datum ← value.toDatum?
    let current ← assign key datum draft.current
    return { draft with current }
  | .table key => do
    let root ← draft.finish
    openTable key root
  | .element key => do
    let root ← draft.finish
    openElement key root

end Draft

/-- The record a TOML text spells. -/
def parse? (text : String) : Option Datum := do
  let found ← statements.whole? text
  let draft ← found.foldlM Draft.add {}
  let root ← draft.finish
  return .record (fieldsToData root)

end LicenseNotice.Toml
