import LicenseNotice.Distinct
import LicenseNotice.Resolve.Error

/-! # Attached conditions

A shipped target carries its own conditions, those of its static closure, and those of the static
closure of every dynamic or runtime dependency met on the way. A dynamic dependency's own dynamic
dependencies are not followed, toolchain edges carry nothing, and members of a container carry
their conditions themselves.
-/

namespace LicenseNotice

set_option autoImplicit false

structure Attachment where
  origin : Target
  condition : Condition
  deriving DecidableEq, Repr

def Target.ownAttachments (t : Target) : List Attachment :=
  t.conditions.map (⟨t, ·⟩)

/-- The targets found so far and the ids not to expand again. -/
structure Expansion where
  found : List Target := []
  visited : List String := []
  deriving Repr

namespace Graph

/-- Depth-first expansion along static edges. A dynamic or runtime dependency contributes what
`linked` finds for it; every edge is followed, also those that carry nothing. -/
def expand (g : Graph) (linked : Target → Except ResolveError (List Target)) :
    (depth : Nat) → Expansion → Target → Except ResolveError Expansion
  | depth, past, t =>
    if t.id ∈ past.visited then return past else
      match depth with
      | 0 => throw (.cycleDetected t.id t.id)
      | depth + 1 =>
        let visit (past : Expansion) (edge : Edge) : Except ResolveError Expansion := do
          let dep ← g.follow t edge
          match edge.linkage with
          | .static => g.expand linked depth past dep
          | .dynamic | .runtime => return { past with found := past.found ++ (← linked dep) }
          | .toolchain | .container => return past
        t.deps.foldlM visit ⟨past.found ++ [t], t.id :: past.visited⟩

/-- `t` and what it links statically, in the order of discovery. -/
def staticClosure (g : Graph) (t : Target) : Except ResolveError (List Target) := do
  let expansion ← g.expand (fun _ => return []) g.size {} t
  return expansion.found

/-- The targets whose conditions reach `t`, in the order of discovery. -/
def contributors (g : Graph) (t : Target) : Except ResolveError (List Target) := do
  let expansion ← g.expand g.staticClosure g.size {} t
  return expansion.found

/-- Each condition of each contributor, once for an origin id. -/
def attachments (g : Graph) (t : Target) : Except ResolveError (List Attachment) := do
  let found ← g.contributors t
  return distinctBy (fun a => (a.origin.id, a.condition)) (found.flatMap (·.ownAttachments))

end Graph

end LicenseNotice
