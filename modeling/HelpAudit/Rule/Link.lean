import HelpAudit.Rule.Context

/-! Links are well formed and lead to topics whose files exist. -/
namespace HelpAudit.Link

open Markup (LinkBody)

def ruleName : String := "link"

inductive Fault where
  | malformed (body : String)
  | hardSpace (topic : String)
  | unknownPackage (name : String)
  | unknownTopic (topic : String)
  | noFile (file : String)
  | otherFile (named topic file : String)
  deriving DecidableEq

def Fault.severity : Fault → Severity
  | .malformed _ | .hardSpace _ | .unknownPackage _ => .error
  | .unknownTopic _ | .noFile _ | .otherFile .. => .warning

def Fault.message : Fault → String
  | .malformed body => "Malformed link; not enough ':' characters ('" ++ body ++ "')"
  | .hardSpace topic => "Link '" ++ topic ++ "' contains nonbreaking spaces or tabs"
  | .unknownPackage name =>
    "Link references a topic in a non-existent package ('" ++ name ++ "')"
  | .unknownTopic topic => "Link references unknown topic '" ++ topic ++ "'"
  | .noFile file => "Link references a non-existent package file ('" ++ file ++ "')"
  | .otherFile named topic file =>
    "Link names file '" ++ named ++ "' but topic '" ++ topic ++ "' is defined in '" ++ file ++ "'"

/-- A link that names a file of the package leads to a topic of that file. -/
def fileFault? (topic file : String) : PackageRef → Option Fault
  | .file named => if file = named then none else some (.otherFile named topic file)
  | _ => none

def topicFault? (cx : Context) (ref : PackageRef) (ix : Index) (topic : String) : Option Fault :=
  match ix.lookup topic with
  | none => some (.unknownTopic topic)
  | some t =>
    if cx.source.holds (ix.resource t.file) then fileFault? topic t.file ref
    else some (.noFile t.file)

/-- The first fault of a link with this body. -/
def fault? (cx : Context) (body : String) : Option Fault :=
  let link := LinkBody.parse body
  match link.topic with
  | none => some (.malformed body)
  | some topic =>
    if hasHardSpace topic then some (.hardSpace topic)
    else
      let ref := cx.resolve link.package
      match cx.indexOf? ref with
      | none => some (.unknownPackage (link.package.getD ""))
      | some ix => topicFault? cx ref ix topic

def check (cx : Context) (d : Document) : List Diagnostic :=
  d.links.filterMap fun s => (fault? cx s.body).map fun f =>
    ⟨f.severity, ruleName, d.file, d.position s, f.message⟩

end HelpAudit.Link
