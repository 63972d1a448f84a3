import HelpAudit.Diagnostic
import HelpAudit.Index.Basic
import HelpAudit.Markup.Body
import HelpAudit.Markup.Span
import HelpAudit.Source.Basic

/-! What rules look at: scanned documents, and the index, catalog and source of a run. -/
namespace HelpAudit

/-- Finds the markup of a text. -/
structure Scanner where
  anchors : String → List Markup.Span
  links : String → List Markup.Span

def Scanner.help : Scanner := ⟨Markup.anchors, Markup.links⟩

/-- A help file with its markup. -/
structure Document where
  file : String
  text : String
  anchors : List Markup.Span
  links : List Markup.Span

namespace Document

def scan (scanner : Scanner) (file text : String) : Document :=
  ⟨file, text, scanner.anchors text, scanner.links text⟩

def position (d : Document) (s : Markup.Span) : Position := .ofOffset d.text s.offset

def firstLine (d : Document) : String := .ofList (Text.firstLine d.text.toList)

end Document

/-- What the package part of a link stands for. -/
inductive PackageRef where
  | own
  | file (name : String)
  | foreign (index : Index)
  | unknown (name : String)

structure Context where
  index : Index
  catalog : Catalog
  source : Source

namespace Context

/-- A loaded package goes before a file of the present one. -/
def resolve (cx : Context) : Option String → PackageRef
  | none => .own
  | some name =>
    if name = cx.index.package then .own
    else
      match cx.catalog.find? name with
      | some ix => .foreign ix
      | none => if cx.index.hasFile name then .file name else .unknown name

def indexOf? (cx : Context) : PackageRef → Option Index
  | .own | .file _ => some cx.index
  | .foreign ix => some ix
  | .unknown _ => none

/-- A finding about the index as a whole. -/
def indexIssue (cx : Context) (severity : Severity) (rule message : String) : Diagnostic :=
  ⟨severity, rule, cx.index.indexFile, .start, message⟩

end Context

/-- No topic may hold a no-break space or a tab. -/
def hasHardSpace (topic : String) : Bool := topic.toList.any fun c => c == '\u00a0' || c == '\t'

end HelpAudit
