import LicenseNotice.Codec.Dialect
import LicenseNotice.Text.Blank

/-! # Configuration

Defaults for the notice command, read from a TOML file with no other fields than these four.
-/

namespace LicenseNotice

set_option autoImplicit false

open Codec

structure Config where
  format : Option String := none
  /-- Title line before the first section. -/
  title : Option String := none
  /-- Leading parts removed from rendered install paths. -/
  stripPrefix : Option (List String) := none
  /-- Directory that license text paths are relative to. -/
  textRoot : Option String := none
  deriving DecidableEq, Repr

inductive ConfigIssue where
  | unknownFormat (format : String)
  | emptyStripPrefix
  deriving DecidableEq, Repr

def ConfigIssue.message : ConfigIssue → String
  | unknownFormat format => s!"Unknown format '{format}' (expected text or json)"
  | emptyStripPrefix => "strip_prefix entries must not be empty"

namespace Config

def default : Config := { format := some "text" }

def fileName : String := "textnotice.toml"

/-- The first thing wrong with the values, if any. -/
def issue? (config : Config) : Option ConfigIssue :=
  match config.format with
  | some "text" | some "json" | none =>
    if (config.stripPrefix.getD []).any Text.isBlank then some .emptyStripPrefix else none
  | some other => some (.unknownFormat other)

def orNull (value : Option Datum) : Datum := value.getD .null

def toDatum (config : Config) : Datum :=
  .record [("format", orNull (optionalText config.format)),
    ("title", orNull (optionalText config.title)),
    ("strip_prefix", orNull (config.stripPrefix.map fun leads => .list (leads.map .text))),
    ("text_root", orNull (optionalText config.textRoot))]

def ofDatum? (dialect : Dialect) (d : Datum) : Option Config := do
  let fields ← Fields.of? dialect ["format", "title", "strip_prefix", "text_root"] true d
  let format ← fields.placed "format" text?
  let title ← fields.placed "title" text?
  let stripPrefix ← fields.placed "strip_prefix" (listOf? text?)
  let textRoot ← fields.placed "text_root" text?
  return { format, title, stripPrefix, textRoot }

end Config

end LicenseNotice
