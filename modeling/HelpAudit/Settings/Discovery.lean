import HelpAudit.Event
import HelpAudit.FileTree
import HelpAudit.Settings.Basic

/-!
Where settings are looked for. The root of a repository is the nearest folder, on the way up from
the one that was named, that holds a settings file or the data of a version control.
-/
namespace HelpAudit

/-- The names of settings files, the first one preferred. -/
def settingsFiles : List (String × SettingsFormat) :=
  [("helplint.toml", .toml), ("helplint.yaml", .yaml), ("helplint.yml", .yaml)]

def rootMarkers : List String := settingsFiles.map (·.1) ++ [".git"]

/-- A path and those above it as they are written, the nearest first. -/
def FilePath.upward (path : String) : List String := climb (path.length + 1) path
where
  climb : Nat → String → List String
    | 0, _ => []
    | fuel + 1, path =>
      path :: match FilePath.parent? path with
        | none => []
        | some p => climb fuel p

namespace FileTree

def holds (t : FileTree) (cwd folder name : String) : Bool :=
  (t.find? cwd (FilePath.join folder name)).isSome

def isRoot (t : FileTree) (cwd folder : String) : Bool := rootMarkers.any (t.holds cwd folder)

/-- The folder that was named if none above it is a root. -/
def repoRoot (t : FileTree) (cwd start : String) : String :=
  ((FilePath.upward start).find? (t.isRoot cwd)).getD start

/-- The settings of the first settings file that is there. One that cannot be read gives none, and
neither does one that breaks its format, which is noted. -/
def settings (t : FileTree) (cwd folder : String) : Logged (Option Settings) :=
  match settingsFiles.find? fun f => t.holds cwd folder f.1 with
  | none => pure none
  | some (name, format) =>
    let path := FilePath.join folder name
    match (t.find? cwd path).bind (·.node.text?) with
    | none => pure none
    | some text =>
      match format.parse? text with
      | some s => pure (some s)
      | none => ⟨none, [.invalidSettings path]⟩

end FileTree

end HelpAudit
