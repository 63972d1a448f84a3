import HelpAudit.Json.Printer
import HelpAudit.Lint

/-! Results and package lists as JSON. -/
namespace HelpAudit

def Diagnostic.toJson (d : Diagnostic) : Json := .object [
  ("severity", .string d.severity.word), ("rule", .string d.rule), ("file", .string d.file),
  ("line", .ofNat d.position.line), ("column", .ofNat d.position.column),
  ("message", .string d.message)]

def Summary.toJson (s : Summary) : Json := .object [
  ("errors", .ofNat s.errors), ("warnings", .ofNat s.warnings), ("infos", .ofNat s.infos),
  ("files", .ofNat s.files)]

def LintResult.toJson (r : LintResult) : Json := .object [
  ("scope", .string r.scope), ("package", .string r.package),
  ("files", .array (r.files.map .string)), ("issues", .array (r.issues.map (·.toJson))),
  ("summary", r.summary.toJson)]

def Index.toJson (ix : Index) : Json := .object [
  ("package", .string ix.package), ("description", .string ix.description),
  ("doc_root", .string ix.docRoot), ("index", .string ix.location),
  ("files", .ofNat ix.files.length)]

def Catalog.toJson (c : Catalog) : Json := .array (c.values.map (·.toJson))

end HelpAudit
