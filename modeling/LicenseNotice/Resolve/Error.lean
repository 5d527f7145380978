import LicenseNotice.Graph

/-! # Failures of resolution

A report must not leave out an obligation silently, so a look-up that finds nothing and an edge
that cannot be followed end the whole resolution.
-/

namespace LicenseNotice

set_option autoImplicit false

inductive ResolveError where
  | noRoots
  | rootNotFound (root : String)
  | graphIncomplete (dependent missing : String)
  /-- A member of something that is no container. -/
  | malformedEdge (owner member : String)
  | cycleDetected (root reached : String)
  deriving DecidableEq, Repr

def ResolveError.message : ResolveError → String
  | noRoots => "No root targets given"
  | rootNotFound root => s!"Root target not found in graph: {root}"
  | graphIncomplete dependent missing =>
    s!"Graph incomplete: '{dependent}' depends on missing target '{missing}'"
  | malformedEdge owner member =>
    s!"Malformed edge '{owner}' -> '{member}': " ++
      "container membership edge from a non-container target"
  | cycleDetected root reached =>
    s!"Cycle detected: traversal from '{root}' did not terminate at '{reached}'"

namespace Graph

def root (g : Graph) (key : String) : Except ResolveError Target :=
  match g.get? key with
  | some t => .ok t
  | none => .error (.rootNotFound key)

/-- The target that `edge`, declared on `dependent`, leads to. -/
def follow (g : Graph) (dependent : Target) (edge : Edge) : Except ResolveError Target :=
  match g.get? edge.dependency with
  | some t => .ok t
  | none => .error (.graphIncomplete dependent.id edge.dependency)

end Graph

end LicenseNotice
