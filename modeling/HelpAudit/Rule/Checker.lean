import HelpAudit.Rule.Anchor
import HelpAudit.Rule.ContentsCoverage
import HelpAudit.Rule.Link
import HelpAudit.Rule.MissingSource
import HelpAudit.Rule.Orphan
import HelpAudit.Rule.Title
import HelpAudit.Target

/-!
The rules as checkers. A checker scans documents one by one and reports when it is asked to finish;
what it reports of single documents it reports once.
-/
namespace HelpAudit

/-- A rule with what it has gathered from the documents scanned so far. -/
inductive Checker where
  | anchor (found : List Diagnostic)
  | link (found : List Diagnostic)
  | missingSource
  | title (found : List Diagnostic)
  | contentsCoverage
  | orphan (linked : List String)

namespace Checker

def name : Checker → String
  | .anchor _ => Anchor.ruleName
  | .link _ => Link.ruleName
  | .missingSource => MissingSource.ruleName
  | .title _ => Title.ruleName
  | .contentsCoverage => ContentsCoverage.ruleName
  | .orphan _ => Orphan.ruleName

/-- The rules that look at one file at a time. -/
def fileRules : List Checker := [.anchor [], .link []]

/-- All rules, in the order in which they report. -/
def all : List Checker :=
  fileRules ++ [.missingSource, .title [], .contentsCoverage, .orphan [Orphan.rootFile]]

/-- A single file is not judged by the rules for whole packages. -/
def forScope : Scope → List Checker
  | .single => fileRules
  | .package => all

def named? (ruleName : String) : Option Checker := all.find? (·.name == ruleName)

def scan (cx : Context) (d : Document) : Checker → Checker
  | .anchor found => .anchor (found ++ Anchor.check cx d)
  | .link found => .link (found ++ Link.check cx d)
  | .missingSource => .missingSource
  | .title found => .title (found ++ Title.check cx d)
  | .contentsCoverage => .contentsCoverage
  | .orphan linked => .orphan (linked ++ Orphan.linkedFiles cx d)

/-- The report, and the checker as it goes on. -/
def finish (cx : Context) : Checker → List Diagnostic × Checker
  | .anchor found => (found, .anchor [])
  | .link found => (found, .link [])
  | .missingSource => (MissingSource.check cx, .missingSource)
  | .title found => (found, .title [])
  | .contentsCoverage => (ContentsCoverage.check cx, .contentsCoverage)
  | .orphan linked => (Orphan.check cx linked, .orphan linked)

def scanAll (cx : Context) (ds : List Document) (c : Checker) : Checker :=
  ds.foldl (fun c d => c.scan cx d) c

/-- One report for each run of documents; the checker goes on from run to run. -/
def rounds (cx : Context) : Checker → List (List Document) → List (List Diagnostic)
  | _, [] => []
  | c, ds :: rest =>
    let (report, next) := (c.scanAll cx ds).finish cx
    report :: rounds cx next rest

end Checker

end HelpAudit
