import LicenseNotice.Category

/-! # Targets of a build

A target is one artifact of the build: what it is installed as, the license conditions declared
on it, and the edges to what it depends on or contains.
-/

namespace LicenseNotice

set_option autoImplicit false

inductive Linkage where
  | static
  | dynamic
  | toolchain
  | container
  | runtime
  deriving DecidableEq, Repr

namespace Linkage

def all : List Linkage := [static, dynamic, toolchain, container, runtime]

def name : Linkage → String
  | static => "static"
  | dynamic => "dynamic"
  | toolchain => "toolchain"
  | container => "container"
  | runtime => "runtime"

def ofName? (text : String) : Option Linkage :=
  all.find? (·.name = text)

theorem ofName?_name (l : Linkage) : ofName? l.name = some l := by
  cases l <;> rfl

end Linkage

/-- Members of a container are installed below it; a leaf has no members. -/
inductive ArtifactKind where
  | container
  | leaf
  deriving DecidableEq, Repr

namespace ArtifactKind

def all : List ArtifactKind := [container, leaf]

def name : ArtifactKind → String
  | container => "container"
  | leaf => "leaf"

def ofName? (text : String) : Option ArtifactKind :=
  all.find? (·.name = text)

theorem ofName?_name (k : ArtifactKind) : ofName? k.name = some k := by
  cases k <;> rfl

end ArtifactKind

structure Condition where
  category : Category
  /-- Path of the license text in the source tree. -/
  text : Option String := none
  /-- Library to report instead of the target's package. -/
  library : Option String := none
  deriving DecidableEq, Repr

structure Edge where
  dependency : String
  linkage : Linkage
  /-- Name of the member inside its container, where it differs from its own install name. -/
  installAs : Option String := none
  deriving DecidableEq, Repr

structure Target where
  id : String
  kind : ArtifactKind := .leaf
  installName : String
  installDir : Option String := none
  package : Option String := none
  conditions : List Condition := []
  deps : List Edge := []
  deriving DecidableEq, Repr

namespace Target

def isContainer (t : Target) : Bool := t.kind = .container

def inDir (t : Target) (dir : String) : Target := { t with installDir := some dir }

def inPackage (t : Target) (package : String) : Target := { t with package := some package }

def withCondition (t : Target) (condition : Condition) : Target :=
  { t with conditions := t.conditions ++ [condition] }

def withDep (t : Target) (edge : Edge) : Target :=
  { t with deps := t.deps ++ [edge] }

/-- The edges to the members of a container, in declaration order. -/
def memberEdges (t : Target) : List Edge :=
  t.deps.filter (·.linkage = .container)

end Target

end LicenseNotice
