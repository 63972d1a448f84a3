import HelpAudit.Markup.Position

/-! Findings, each with its place in a file. -/
namespace HelpAudit

inductive Severity where
  | info
  | warning
  | error
  deriving DecidableEq, Inhabited

def Severity.word : Severity → String
  | .info => "info"
  | .warning => "warning"
  | .error => "error"

structure Diagnostic where
  severity : Severity
  rule : String
  file : String
  position : Position
  message : String
  deriving DecidableEq

/-- Where findings about the index or a whole file stand. -/
def Position.start : Position := ⟨1, 1⟩

/-- How many findings there are of each severity, and how many files were scanned. -/
structure Summary where
  errors : Nat
  warnings : Nat
  infos : Nat
  files : Nat
  deriving DecidableEq

def countOf (s : Severity) (issues : List Diagnostic) : Nat := issues.countP (·.severity = s)

def Summary.tally (issues : List Diagnostic) (files : Nat) : Summary :=
  ⟨countOf .error issues, countOf .warning issues, countOf .info issues, files⟩

end HelpAudit
