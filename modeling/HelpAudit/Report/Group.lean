import HelpAudit.Diagnostic

/-! Findings grouped by file, in the order in which files first appear. -/
namespace HelpAudit

structure IssueGroup where
  file : String
  issues : List Diagnostic
  deriving DecidableEq

/-- Puts a finding at the end of its file's group, or of a new group at the end. -/
def addToGroups (d : Diagnostic) : List IssueGroup → List IssueGroup
  | [] => [⟨d.file, [d]⟩]
  | g :: gs =>
    if g.file = d.file then ⟨g.file, g.issues ++ [d]⟩ :: gs else g :: addToGroups d gs

def groupByFile (issues : List Diagnostic) : List IssueGroup :=
  issues.foldl (fun gs d => addToGroups d gs) []

end HelpAudit
