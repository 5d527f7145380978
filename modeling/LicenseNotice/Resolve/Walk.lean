import LicenseNotice.InstallPath
import LicenseNotice.Resolve.Error

/-! # Walks over containers

A walk lists every chain from a root on which no target id repeats: a chain before its extensions,
the extensions in declaration order. An artifact inside two containers is therefore met once for
each physical location.
-/

namespace LicenseNotice

set_option autoImplicit false

namespace Graph

/-- The chains that begin with `chain`, whose ids are `onPath`. A chain has no more steps than the
graph has entries, since its ids differ; `depth` is what is left of that bound. -/
def walkFrom (g : Graph) : (depth : Nat) → (onPath : List String) → Chain →
    Except ResolveError (List Chain)
  | 0, _, chain => throw (.cycleDetected chain.root.id chain.last.id)
  | depth + 1, onPath, chain => do
    let below ← chain.last.memberEdges.mapM fun edge => do
      let member ← g.follow chain.last edge
      if member.id ∈ onPath then
        return []
      else
        g.walkFrom depth (member.id :: onPath) (chain.extend ⟨edge, member⟩)
    return chain :: below.flatten

def walk (g : Graph) (root : Target) : Except ResolveError (List Chain) :=
  g.walkFrom g.size [root.id] ⟨root, []⟩

end Graph

end LicenseNotice
