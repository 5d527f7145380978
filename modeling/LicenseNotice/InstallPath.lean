import LicenseNotice.Text.Slash
import LicenseNotice.Target

/-! # Chains of containers and install paths

A chain leads from a root target through members of containers. Its install path is the output
root, the root's install location and one name for each step; slashes around a segment do not
count, and empty segments are skipped.
-/

namespace LicenseNotice

set_option autoImplicit false

/-- One step into a container: the edge taken and the member it leads to. -/
structure Step where
  edge : Edge
  member : Target
  deriving DecidableEq, Repr

/-- The name a member is shipped under inside its container. -/
def Step.segment (step : Step) : String :=
  step.edge.installAs.getD step.member.installName

structure Chain where
  root : Target
  steps : List Step := []
  deriving DecidableEq, Repr

namespace Chain

def last (chain : Chain) : Target :=
  (chain.steps.getLast?.map (·.member)).getD chain.root

def extend (chain : Chain) (step : Step) : Chain :=
  { chain with steps := chain.steps ++ [step] }

def targets (chain : Chain) : List Target :=
  chain.root :: chain.steps.map (·.member)

end Chain

namespace InstallPath

/-- What is left of the segments without the slashes around them, nothing aside. -/
def parts (segments : List String) : List (List Char) :=
  (segments.map fun segment => Text.trimSlashes segment.toList).filter (! ·.isEmpty)

def join (segments : List String) : String :=
  String.ofList (['/'].intercalate (parts segments))

/-- The segments of a root target's own install path. -/
def rootSegments (outputRoot : String) (root : Target) : List String :=
  outputRoot :: (root.installDir.toList ++ [root.installName])

def ofRoot (outputRoot : String) (root : Target) : String :=
  join (rootSegments outputRoot root)

def ofChain (outputRoot : String) (chain : Chain) : String :=
  join (rootSegments outputRoot chain.root ++ chain.steps.map (·.segment))

end InstallPath

end LicenseNotice
