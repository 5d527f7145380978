import LicenseNotice.Codec.Target

/-! # Manifests

A manifest declares targets and, optionally, the output root. -/

namespace LicenseNotice

set_option autoImplicit false

open Codec

structure Manifest where
  outputRoot : Option String := none
  targets : List Target := []
  deriving DecidableEq, Repr

namespace Manifest

def toDatum (m : Manifest) : Datum :=
  .ofFields [("output_root", optionalText m.outputRoot),
    ("target", some (.list (m.targets.map (·.toDatum))))]

def ofDatum? (dialect : Dialect) (d : Datum) : Option Manifest := do
  let fields ← Fields.of? dialect ["output_root", "target"] false d
  let outputRoot ← fields.placed "output_root" text?
  let targets ← fields.orElse "target" (listOf? (Target.ofDatum? dialect)) []
  return { outputRoot, targets }

end Manifest

end LicenseNotice
