import HelpAudit.Lint
import HelpAudit.Report.Group
import HelpAudit.Report.Paint

/-!
Reports for people. A file's findings stand below a line `file:`, each on a line with its severity,
its place after an `@`, and its message. Colours only wrap the severities and the summary.
-/
namespace HelpAudit

/-- At least `width` characters, blanks at the end. -/
def padEnd (width : Nat) (text : String) : String :=
  text ++ .ofList (List.replicate (width - text.length) ' ')

def plural (n : Nat) (word : String) : String :=
  toString n ++ " " ++ word ++ if n = 1 then "" else "s"

namespace LintResult

def summaryLine (r : LintResult) : String :=
  plural r.summary.warnings "warning" ++ ", " ++ plural r.summary.errors "error"

def titleLine (r : LintResult) : String :=
  match r.files with
  | file :: _ =>
    if r.scope = Scope.single.word then "Linting " ++ file ++ " in help package: " ++ r.package
    else "Linting help package: " ++ r.package
  | [] => "Linting help package: " ++ r.package

def severityWord (color : Bool) (s : Severity) : String :=
  let word := padEnd 7 s.word
  if color then bold (s.colour.paint word) else word

def positionText (p : Position) : String := toString p.line ++ ":" ++ toString p.column

def issueLine (color : Bool) (d : Diagnostic) : String :=
  "    " ++ severityWord color d.severity ++ " @ " ++ padEnd 7 (positionText d.position) ++ " "
    ++ d.message

def groupLines (color : Bool) (g : IssueGroup) : List String :=
  (g.file ++ ":") :: g.issues.map (issueLine color) ++ [""]

def lines (color : Bool) (r : LintResult) : List String :=
  [r.titleLine, ""] ++ (groupByFile r.issues).flatMap (groupLines color)
    ++ [if color then bold r.summaryLine else r.summaryLine]

def report (r : LintResult) : String := "\n".intercalate (r.lines false)

end LintResult

end HelpAudit
