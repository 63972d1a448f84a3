import HelpAudit.Header
import HelpAudit.Rule.Context

/-! A help file starts with a header whose title is the one that the index declares. -/
namespace HelpAudit.Title

def ruleName : String := "title"

inductive Fault where
  | noHeader (file : String)
  | otherTitle (file : String)
  deriving DecidableEq

def Fault.severity : Fault → Severity
  | .noHeader _ => .error
  | .otherTitle _ => .warning

def Fault.message : Fault → String
  | .noHeader file => "File '" ++ file ++ "' does not have a help header"
  | .otherTitle file => "Title in file header for '" ++ file ++ "' does not match the index"

/-- A file that the index does not declare may have any title. -/
def fault? (ix : Index) (d : Document) : Option Fault :=
  match Header.parse? d.firstLine with
  | none => some (.noHeader d.file)
  | some header =>
    match ix.title? d.file with
    | none => none
    | some title => if title = header.title then none else some (.otherTitle d.file)

def check (cx : Context) (d : Document) : List Diagnostic :=
  ((fault? cx.index d).map fun f =>
    ⟨f.severity, ruleName, d.file, .start, f.message⟩).toList

end HelpAudit.Title
