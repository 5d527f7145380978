import LicenseNotice.Codec.Dialect
import LicenseNotice.Graph

/-! # Targets and graphs as data -/

namespace LicenseNotice

set_option autoImplicit false

open Codec

namespace Condition

def toDatum (c : Condition) : Datum :=
  .ofFields [("category", some (.text c.category.name)), ("text", optionalText c.text),
    ("library", optionalText c.library)]

def ofDatum? (dialect : Dialect) (d : Datum) : Option Condition := do
  let fields ← Fields.of? dialect ["category", "text", "library"] false d
  let category ← fields.required "category" (choice? dialect Category.ofName?)
  let text ← fields.optional "text" text?
  let library ← fields.optional "library" text?
  return { category, text, library }

end Condition

namespace Edge

def toDatum (e : Edge) : Datum :=
  .ofFields [("dependency", some (.text e.dependency)), ("linkage", some (.text e.linkage.name)),
    ("install_as", optionalText e.installAs)]

def ofDatum? (dialect : Dialect) (d : Datum) : Option Edge := do
  let fields ← Fields.of? dialect ["dependency", "linkage", "install_as"] false d
  let dependency ← fields.required "dependency" text?
  let linkage ← fields.required "linkage" (choice? dialect Linkage.ofName?)
  let installAs ← fields.optional "install_as" text?
  return { dependency, linkage, installAs }

end Edge

namespace Target

def toDatum (t : Target) : Datum :=
  .ofFields [("id", some (.text t.id)), ("kind", some (.text t.kind.name)),
    ("install_name", some (.text t.installName)), ("install_dir", optionalText t.installDir),
    ("package", optionalText t.package),
    ("conditions", some (.list (t.conditions.map (·.toDatum)))),
    ("deps", some (.list (t.deps.map (·.toDatum))))]

def fieldNames : List String :=
  ["id", "kind", "install_name", "install_dir", "package", "conditions", "deps"]

def ofDatum? (dialect : Dialect) (d : Datum) : Option Target := do
  let fields ← Fields.of? dialect fieldNames false d
  let id ← fields.required "id" text?
  let kind ← fields.orElse "kind" (choice? dialect ArtifactKind.ofName?) .leaf
  let installName ← fields.required "install_name" text?
  let installDir ← fields.optional "install_dir" text?
  let package ← fields.optional "package" text?
  let conditions ← fields.orElse "conditions" (listOf? (Condition.ofDatum? dialect)) []
  let deps ← fields.orElse "deps" (listOf? (Edge.ofDatum? dialect)) []
  return { id, kind, installName, installDir, package, conditions, deps }

end Target

namespace Graph

def toDatum (g : Graph) : Datum :=
  .record [("output_root", .text g.outputRoot),
    ("targets", .record (g.entries.map fun (key, t) => (key, t.toDatum)))]

/-- Targets under their keys; a repeated key replaces the target and keeps its place. -/
def entriesOf? (dialect : Dialect) : Datum → Option (List (String × Target))
  | .record fields => do
    let entries ← fields.mapM fun (key, d) => return (key, ← Target.ofDatum? dialect d)
    return Keyed.ofList entries
  | _ => none

def ofDatum? (dialect : Dialect) (d : Datum) : Option Graph := do
  let fields ← Fields.of? dialect ["output_root", "targets"] false d
  let outputRoot ← fields.required "output_root" text?
  let entries ← fields.required "targets" (entriesOf? dialect)
  return { outputRoot, entries }

end Graph

end LicenseNotice
