import LicenseNotice.Resolve.Error

/-! # Shipped targets

What is reached from the roots through members of containers ships. The list is breadth-first,
holds each id once, and is made only if every edge it passes can be followed.
-/

namespace LicenseNotice

set_option autoImplicit false

namespace Graph

/-- A breadth-first search under way: the ids ever queued and the targets still to visit. -/
structure Frontier where
  queued : List String := []
  pending : List Target := []
  deriving Repr

namespace Frontier

def enqueue (frontier : Frontier) (t : Target) : Frontier :=
  if t.id ∈ frontier.queued then frontier
  else ⟨t.id :: frontier.queued, frontier.pending ++ [t]⟩

def ofRoots (roots : List Target) : Frontier :=
  roots.foldl enqueue {}

end Frontier

/-- Checks one edge of `t` and queues the member it leads to, if it leads to one. -/
def passEdge (g : Graph) (t : Target) (frontier : Frontier) (edge : Edge) :
    Except ResolveError Frontier := do
  let dep ← g.follow t edge
  if edge.linkage ≠ .container then
    return frontier
  else if t.isContainer then
    return frontier.enqueue dep
  else
    throw (.malformedEdge t.id dep.id)

/-- Visits at most `limit` targets; a graph has no more ids than entries. -/
def shippedFrom (g : Graph) : (limit : Nat) → Frontier → Except ResolveError (List Target)
  | _, ⟨_, []⟩ => return []
  | 0, ⟨_, t :: _⟩ => throw (.cycleDetected t.id t.id)
  | limit + 1, ⟨queued, t :: pending⟩ => do
    let frontier ← t.deps.foldlM (g.passEdge t) ⟨queued, pending⟩
    let later ← g.shippedFrom limit frontier
    return t :: later

def shipped (g : Graph) (roots : List Target) : Except ResolveError (List Target) :=
  g.shippedFrom g.size (.ofRoots roots)

end Graph

end LicenseNotice
