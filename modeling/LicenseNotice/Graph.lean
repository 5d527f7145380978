import LicenseNotice.Keyed
import LicenseNotice.Target

/-! # Artifact graphs

A graph stores its targets under keys, in insertion order. Building one by `insert` keys each
target by its own id; a graph that was read in may have other keys, so look-ups go by key and
everything that names a target goes by its id.
-/

namespace LicenseNotice

set_option autoImplicit false

structure Graph where
  outputRoot : String
  entries : List (String × Target)
  deriving DecidableEq, Repr

namespace Graph

def defaultOutputRoot : String := "out"

def empty (outputRoot : String) : Graph := ⟨outputRoot, []⟩

instance : Inhabited Graph := ⟨empty defaultOutputRoot⟩

def get? (g : Graph) (key : String) : Option Target := Keyed.get? key g.entries

def contains (g : Graph) (key : String) : Bool := Keyed.contains key g.entries

def size (g : Graph) : Nat := g.entries.length

def targets (g : Graph) : List Target := Keyed.values g.entries

/-- The graph with a target under its id, and the target it replaces. -/
def insert (g : Graph) (t : Target) : Option Target × Graph :=
  let (replaced, entries) := Keyed.exchange t.id t g.entries
  (replaced, { g with entries })

/-- A later target with a repeated id replaces the earlier one in its place. -/
def ofTargets (outputRoot : String) (targets : List Target) : Graph :=
  targets.foldl (fun g t => (g.insert t).2) (empty outputRoot)

def withoutConditions (g : Graph) : Graph :=
  { g with entries := g.entries.map fun (key, t) => (key, { t with conditions := [] }) }

/-- Every target is stored under its own id. -/
def KeyedById (g : Graph) : Prop :=
  (∀ entry ∈ g.entries, entry.1 = entry.2.id) ∧ (Keyed.keys g.entries).Nodup

end Graph

end LicenseNotice
