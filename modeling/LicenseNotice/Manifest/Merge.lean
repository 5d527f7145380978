import LicenseNotice.Manifest
import LicenseNotice.Text.Blank

/-! # Merging manifests

Manifests are merged in order into one graph: first a manifest's output root, which must agree with
those before it, then its targets. A target with a blank id or install name is skipped with a
warning; two kept targets must not share an id.
-/

namespace LicenseNotice

set_option autoImplicit false

inductive Warning where
  | noTargets (path : String)
  | blankId (path : String)
  | blankInstallName (id : String)
  deriving DecidableEq, Repr

def Warning.message : Warning → String
  | noTargets path => s!"Graph manifest contains no targets: {path}"
  | blankId path => s!"Skipping target with empty id in {path}"
  | blankInstallName id => s!"Skipping target '{id}' with empty install_name"

inductive MergeError where
  | conflictingRoots (path declared accepted : String)
  | duplicateTarget (id path : String)
  deriving DecidableEq, Repr

def MergeError.message : MergeError → String
  | conflictingRoots path declared accepted =>
    s!"Conflicting output_root in {path}: '{declared}' (already '{accepted}')"
  | duplicateTarget id path => s!"Duplicate target '{id}' in {path}"

/-- A computation that may refuse and that keeps its warnings even then. -/
abbrev Merging := ExceptT MergeError (StateM (List Warning))

structure Merged where
  outputRoot : Option String := none
  targets : List Target := []
  deriving Repr

namespace Merged

def declareRoot (merged : Merged) (path : String) : Option String → Merging Merged
  | none => return merged
  | some declared =>
    match merged.outputRoot with
    | none => return { merged with outputRoot := some declared }
    | some accepted =>
      if accepted = declared then return merged
      else throw (.conflictingRoots path declared accepted)

def addTarget (path : String) (merged : Merged) (t : Target) : Merging Merged := do
  if Text.isBlank t.id then
    modify (· ++ [.blankId path])
    return merged
  else if Text.isBlank t.installName then
    modify (· ++ [.blankInstallName t.id])
    return merged
  else if t.id ∈ merged.targets.map (·.id) then
    throw (.duplicateTarget t.id path)
  else
    return { merged with targets := merged.targets ++ [t] }

def addManifest (merged : Merged) (manifest : String × Manifest) : Merging Merged := do
  let (path, m) := manifest
  let merged ← merged.declareRoot path m.outputRoot
  m.targets.foldlM (addTarget path) merged

def graph (merged : Merged) : Graph :=
  .ofTargets (merged.outputRoot.getD Graph.defaultOutputRoot) merged.targets

end Merged

namespace Manifest

/-- One graph from manifests, each with the path it was read from. -/
def merge (manifests : List (String × Manifest)) : Merging Graph := do
  let merged ← manifests.foldlM Merged.addManifest {}
  return merged.graph

def merge? (manifests : List (String × Manifest)) : Except MergeError Graph :=
  ((merge manifests).run.run []).1

end Manifest

end LicenseNotice
