import HelpAudit.Settings.Discovery

/-! The settings of a run: what it was called with, else what the file says, else a default. -/
namespace HelpAudit

/-- What a run may be called with; `repoRoot` is where the search for settings starts. -/
structure Overrides where
  repoRoot : Option String
  packagesRoot : Option String
  output : Option String

structure Setup where
  repoRoot : String
  packagesRoot : String
  output : String
  indexName : String

namespace Setup

def defaultPackagesRoot : String := "Packages"
def defaultOutput : String := "human"
def defaultIndexName : String := "hyperhelp.json"

/-- A configured packages directory lies below the repository's root, one that was called for need
not. -/
def ofSettings (repoRoot : String) (o : Overrides) (s : Settings) : Setup where
  repoRoot := repoRoot
  packagesRoot :=
    o.packagesRoot.getD (FilePath.join repoRoot (s.packagesRoot.getD defaultPackagesRoot))
  output := (o.output.or s.output).getD defaultOutput
  indexName := s.indexName.getD defaultIndexName

def resolve (t : FileTree) (cwd : String) (o : Overrides) : Logged Setup := do
  let root := t.repoRoot cwd (o.repoRoot.getD ".")
  let settings ← t.settings cwd root
  return ofSettings root o (settings.getD .empty)

end Setup

end HelpAudit
