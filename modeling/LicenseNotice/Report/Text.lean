import LicenseNotice.LicenseTexts
import LicenseNotice.Text.Slash

/-! # The text report

A line-oriented rendering of sections: a rule, a paragraph for each library, the marker line of the
category, the license text if there is one, and an empty line.
-/

namespace LicenseNotice

set_option autoImplicit false

structure ReportOptions where
  /-- Written once, before the first section. -/
  title : Option String := none
  /-- Leading parts removed from the install paths as they are written. -/
  stripPrefixes : List String := []
  deriving DecidableEq, Repr

namespace TextReport

def horizontalRule : String :=
  "=============================================================================="

/-- What stands below `lead` in `path`, without the slashes in front; nothing if that is empty. -/
def below? (lead path : String) : Option String :=
  if lead.isEmpty then none else do
    let rest ← List.isPrefixOf? lead.toList path.toList
    match rest.dropWhile Text.isSlash with
    | [] => none
    | below => some (String.ofList below)

/-- The first of the leads that leaves something is removed. -/
def strip (leads : List String) (path : String) : String :=
  (leads.findSome? (below? · path)).getD path

def line (text : String) : String := text ++ "\n"

/-- A text closed by a line feed, which is added where it is missing. -/
def closed (text : String) : String :=
  if text.toList.getLast? = some '\n' then text else line text

def titleText (title : Option String) : String :=
  match title.bind Text.trimmed? with
  | none => ""
  | some title => line title ++ line ""

def blockText (leads : List String) (block : LibraryBlock) : String :=
  line (block.library ++ " used by:") ++
    String.join (block.installs.map fun path => line ("  " ++ strip leads path)) ++
    line ""

def sectionText (leads : List String) (texts : LicenseTexts) (s : Section) : String :=
  line horizontalRule ++
    String.join (s.blocks.map (blockText leads)) ++
    line s.notice.marker ++
    ((texts.get? s.notice).elim "" closed) ++
    line ""

def render (options : ReportOptions) (texts : LicenseTexts) (sections : List Section) : String :=
  titleText options.title ++
    String.join (sections.map (sectionText options.stripPrefixes texts))

end TextReport

end LicenseNotice
