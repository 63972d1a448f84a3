import HelpAudit.Rule.Checker
import HelpAudit.Store

/-! Linting a target: its files are read and scanned in order, then each rule reports in turn. -/
namespace HelpAudit

/-- The text of each file that has one; the others are noted. -/
def Target.documents (t : Target) (source : Source) (scanner : Scanner) :
    Logged (List Document) := do
  let found ← t.files.mapM fun file =>
    match source.content (t.index.resource file) with
    | some text => pure (some (Document.scan scanner file text))
    | none => do
      Logged.note (.contentUnavailable file t.index.package)
      return none
  return found.reduceOption

/-- Every rule scans every document before the first one reports. -/
def reports (cx : Context) (docs : List Document) (rules : List Checker) : List Diagnostic :=
  (docs.foldl (fun cs d => cs.map (·.scan cx d)) rules).flatMap fun c => (c.finish cx).1

/-- The findings and the number of files scanned. -/
def Target.lint (t : Target) (catalog : Catalog) (source : Source) (scanner : Scanner) :
    Logged (List Diagnostic × Nat) := do
  let docs ← t.documents source scanner
  return (reports ⟨t.index, catalog, source⟩ docs (Checker.forScope t.scope), docs.length)

/-- `scope` is the word of a scope, `files` are those that were asked for. -/
structure LintResult where
  scope : String
  package : String
  files : List String
  issues : List Diagnostic
  summary : Summary

def Target.result (t : Target) (issues : List Diagnostic) (scanned : Nat) : LintResult :=
  ⟨t.scope.word, t.index.package, t.files, issues, .tally issues scanned⟩

/-- Lints what a path asks for; none when no package owns it. -/
def Store.lint (st : Store) (source : Source) (scanner : Scanner) (path : String) :
    Logged (Option LintResult) :=
  match Target.resolve? st.catalog path with
  | none => pure none
  | some t => do
    let (issues, scanned) ← t.lint st.catalog source scanner
    return some (t.result issues scanned)

end HelpAudit
