import HelpAudit.CommandLine.Arguments
import HelpAudit.Report.Json
import HelpAudit.Report.Text
import HelpAudit.Source.Disk

/-!
A run of the program on a directory tree. It reads the tree only, and what it prints and its exit
code are its whole result. Code 1 says that errors were found, code 2 that nothing was looked at.
-/
namespace HelpAudit

/-- Which of the two outputs show colours. -/
structure Colours where
  out : Bool
  err : Bool

structure Outcome where
  exit : Nat
  out : String
  err : String

namespace Outcome

def ofLines (ls : List String) : String := String.join (ls.map (· ++ "\n"))

/-- A word in front of a message. -/
def leading (colours : Colours) (c : Colour) (word : String) : String :=
  if colours.err then bold (c.paint word) else word

/-- A run that could not start. -/
def failed (colours : Colours) (message : String) : Outcome :=
  ⟨2, "", ofLines [leading colours .red "error:" ++ " " ++ message]⟩

/-- A run that found nothing to do. -/
def idle (colours : Colours) (message : String) : Outcome :=
  ⟨0, "", ofLines [leading colours .cyan "note:" ++ " " ++ message]⟩

/-- Usage messages have no colours. -/
def stopped : UsageStop → Outcome
  | .help => ⟨0, "\n", ""⟩
  | s => ⟨2, "", ofLines [(s.message?.map ("error: " ++ ·)).getD ""]⟩

end Outcome

inductive OutputMode where
  | human
  | json
  deriving DecidableEq

def OutputMode.ofWord? : String → Option OutputMode
  | "human" => some .human
  | "json" => some .json
  | _ => none

/-- The path of what is there, free of detours; else the path itself, from the working directory. -/
def FileTree.absolute (t : FileTree) (cwd path : String) : String :=
  match t.find? cwd path with
  | some p => p.path
  | none => if FilePath.isAbsolute path then path else FilePath.join cwd path

/-- A store of all indexes below a packages directory, given by its absolute path. -/
structure Workspace where
  mode : OutputMode
  root : String
  store : Store

namespace Workspace

/-- The output mode is looked at before the packages directory is. -/
def start (t : FileTree) (cwd : String) (o : Overrides) : Logged (Except String Workspace) := do
  let setup ← Setup.resolve t cwd o
  match OutputMode.ofWord? setup.output with
  | none =>
    return .error ("Unknown output mode '" ++ setup.output ++ "' (expected human or json)")
  | some mode =>
    let _ ← t.settings cwd setup.repoRoot
    match t.find? cwd setup.packagesRoot with
    | some p =>
      if p.node.isFolder then
        let store ← Store.openAll (t.source p.path) setup.indexName
        return .ok ⟨mode, p.path, store⟩
      else return .error (notFound setup)
    | none => return .error (notFound setup)
where
  notFound (setup : Setup) : String :=
    "Packages directory not found: " ++ setup.packagesRoot
      ++ " (pass --packages-root or configure helplint.toml)"

/-- How many files were scanned, where some were not and a person reads it. -/
def progress (w : Workspace) (colours : Colours) (r : LintResult) : String :=
  if w.mode = .human ∧ r.summary.files < r.files.length then
    Outcome.ofLines [Outcome.leading colours .blue "info:" ++ " Scanned "
      ++ toString r.summary.files ++ " of " ++ toString r.files.length ++ " help files"]
  else ""

def lintOutput (w : Workspace) (colours : Colours) (r : LintResult) : String :=
  match w.mode with
  | .json => Outcome.ofLines [r.toJson.pretty]
  | .human => Outcome.ofLines (r.lines colours.out)

def lint (w : Workspace) (t : FileTree) (cwd : String) (colours : Colours) (path : String) :
    Logged Outcome :=
  match FilePath.resource? (t.absolute cwd path) w.root with
  | none => pure (.idle colours (path ++ " is not inside " ++ w.root ++ "; nothing to lint"))
  | some resource => do
    match ← w.store.lint (t.source w.root) .help resource with
    | none =>
      return .idle colours (resource ++ " is not part of any help package; nothing to lint")
    | some r =>
      return ⟨if 0 < r.summary.errors then 1 else 0, w.lintOutput colours r,
        w.progress colours r⟩

def packageLine (colours : Colours) (ix : Index) : String :=
  (if colours.out then bold ix.package else ix.package) ++ " (" ++ ix.docRoot ++ ", "
    ++ plural ix.files.length "file" ++ ")"

def packages (w : Workspace) (colours : Colours) : Outcome :=
  let catalog := w.store.catalog
  match w.mode with
  | .json => ⟨0, Outcome.ofLines [catalog.toJson.pretty], ""⟩
  | .human =>
    ⟨0, Outcome.ofLines (catalog.values.map (packageLine colours)
      ++ [plural catalog.size "package"]), ""⟩

end Workspace

def versionNumber : String := "0.1.0"

/-- Carries a request out in a working directory of a tree. -/
def Request.run (t : FileTree) (cwd : String) (colours : Colours) : Request → Logged Outcome
  | .commandVersion => pure ⟨0, Outcome.ofLines [versionNumber], ""⟩
  | .programVersion => pure ⟨0, Outcome.ofLines ["helplint " ++ versionNumber], ""⟩
  | .lint path o _ => do
    match ← Workspace.start t cwd o with
    | .error message => return .failed colours message
    | .ok w => w.lint t cwd colours path
  | .packages o _ => do
    match ← Workspace.start t cwd o with
    | .error message => return .failed colours message
    | .ok w => return w.packages colours

def runCommandLine (t : FileTree) (cwd : String) (colours : Colours) (args : List String) :
    Logged Outcome :=
  match Arguments.read args with
  | .error stop => pure (.stopped stop)
  | .ok request => request.run t cwd colours

end HelpAudit
