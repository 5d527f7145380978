import LicenseNotice.Failure
import LicenseNotice.Json.Parser
import LicenseNotice.Toml.Document

/-! # Loading graphs

A graph is loaded from one manifest, or from every manifest below a directory. Manifests are JSON
where the file name says so and TOML otherwise.
-/

namespace LicenseNotice

set_option autoImplicit false

open Codec

def Markup.ofPath (path : String) : Markup :=
  if Location.extension? path = some "json" then .json else .toml

namespace Manifest

def ofText? (written : Markup) (text : String) : Option Manifest :=
  match written with
  | .json => (Json.parse? text).bind (ofDatum? .json)
  | .toml => (Toml.parse? text).bind (ofDatum? .toml)

variable {m : Type → Type} [Monad m] [FileReader m]

def load (path : String) : Loading m Manifest := do
  unless ← Loading.ask (FileReader.pathExists path) do
    throw (.manifestNotFound path)
  let text ← Loading.readFile path (.manifestUnreadable path)
  if Text.isBlank text then throw (.manifestEmpty path)
  let written := Markup.ofPath path
  match ofText? written text with
  | none => throw (.manifestMalformed path written)
  | some manifest =>
    if manifest.targets.isEmpty then Loading.warn (.noTargets path)
    return manifest

/-- Signs of search patterns. A name with one of them is looked for among the names in its
directory; any other is asked for. -/
def isPatternSign (c : Char) : Bool := c ∈ ['?', '*', '[', ']']

/-- Why a search cannot go from a directory to `piece`. -/
def unreadOnWay? (path piece : String) : m (Option FileFailure) :=
  if piece.toList.any isPatternSign then FileReader.unread? path else return none

/-- Follows the pieces of a directory's path one by one. Until a proper name is met the path so far
is `.`, which the next piece replaces. -/
def searchBase (path : String) : List String → m (Except (String × FileFailure) (Option String))
  | [] => return .ok (some path)
  | piece :: rest => do
    match ← unreadOnWay? path piece with
    | some cause => return .error (path, cause)
    | none =>
      let next := if path = "." then piece else Location.join path piece
      let passable ←
        if piece = "." ∨ piece = ".." then FileReader.isDirectory path
        else FileReader.pathExists next
      if passable then searchBase next rest else return .ok none

def isManifestName (name : String) : Bool :=
  [".toml", ".json"].any fun ending => ending.toList.isSuffixOf name.toList

def below (base : String) (names : List String) : String :=
  if base = "." ∧ names ≠ [] then "/".intercalate names
  else names.foldl Location.join base

/-- The directory that a search goes down from, if it can be reached, or one on the way to it that
cannot be read, and why. -/
def base? (directory : String) : m (Except (String × FileFailure) (Option String)) :=
  match Location.pieces directory with
  | "" :: rest => searchBase "/" rest
  | pieces => searchBase "." pieces

/-- The manifest files below a directory, hidden ones included, in the order of their paths. -/
def find (directory : String) : m (List String) := do
  match ← base? directory with
  | .error _ | .ok none => return []
  | .ok (some base) =>
    let files ← FileReader.filesBelow base
    let manifests := files.filter fun names => isManifestName (names.getLastD "")
    return Location.sort (manifests.map (below base))

/-- A search for manifests reads every directory below the given one, and fails where it cannot. It
has no other way to fail: it looks for the given path with its signs escaped, which is always a
proper pattern. -/
def requireReadable (directory : String) : Loading m Unit := do
  match ← Loading.ask (base? directory) with
  | .error (unread, cause) => throw (.unscannable directory unread cause)
  | .ok none => return ()
  | .ok (some base) =>
    match ← Loading.ask (FileReader.unreadBelow? base) with
    | none => return ()
    | some (names, cause) => throw (.unscannable directory (below base names) cause)

/-- The manifest files that a path stands for. -/
def filesAt (path : String) : Loading m (List String) := do
  if ← Loading.ask (FileReader.isDirectory path) then
    requireReadable path
    let files ← Loading.ask (find path)
    if files.isEmpty then throw (.noManifests path)
    return files
  else
    return [path]

end Manifest

/-- The graph of the manifest at a path, or of all manifests below it. -/
def Graph.load {m : Type → Type} [Monad m] [FileReader m] (path : String) : Loading m Graph := do
  let files ← Manifest.filesAt path
  let manifests ← files.mapM fun file => return (file, ← Manifest.load file)
  Loading.ofMerging (Manifest.merge manifests)

end LicenseNotice
