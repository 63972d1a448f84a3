import HelpAudit.Glob
import HelpAudit.NameMap
import HelpAudit.Resource
import HelpAudit.Source.Basic

/-! Texts kept in memory, such as open buffers. -/
namespace HelpAudit

/-- Texts by canonical resource path. -/
abbrev Memory := NameMap String

namespace Memory

def put (m : Memory) (path text : String) : Memory := m.insert (Resource.normalize path) text

def ofList (files : List (String × String)) : Memory :=
  files.foldl (fun m f => put m f.1 f.2) NameMap.empty

def list (m : Memory) (folder glob : String) : List String :=
  match Glob.parse? glob with
  | none => []
  | some atoms =>
    let folder := Resource.normalize folder
    m.names.filter fun path =>
      (Resource.below? folder path).isSome
        && Glob.matchesName atoms (Resource.leaf path).toList

def source (m : Memory) : Source where
  content path := m.find? (Resource.normalize path)
  holds path := m.contains (Resource.normalize path)
  list folder glob := pure (list m folder glob)

end Memory

end HelpAudit
