import HelpAudit.Index.Load
import HelpAudit.Source.Basic

/-! The store of loaded indexes. A reload makes a new catalog; one that fails keeps the old one. -/
namespace HelpAudit

structure Store where
  indexName : String
  catalog : Catalog

namespace Store

def new (indexName : String) : Store := ⟨indexName, .empty⟩

def loadAt (source : Source) (location : String) : Logged (Except Index.LoadError Index) :=
  match source.content location with
  | none => pure (.error (.unreadable location))
  | some text => Index.load text location

/-- The first index of a package stays. -/
def addIndex (catalog : Catalog) (location : String) (ix : Index) : Logged Catalog :=
  match catalog.find? ix.package with
  | some kept => ⟨catalog, [.indexRepeated ix.package kept.location location]⟩
  | none => pure (catalog.insert ix.package ix)

def addLocation (source : Source) (catalog : Catalog) (location : String) : Logged Catalog := do
  match ← loadAt source location with
  | .ok ix => addIndex catalog location ix
  | .error e =>
    Logged.note (.indexSkipped e)
    return catalog

def gather (source : Source) (catalog : Catalog) : List String → Logged Catalog
  | [] => pure catalog
  | l :: ls => do gather source (← addLocation source catalog l) ls

/-- Loads every index that the source lists; what was loaded before has no say. -/
def reloadAll (st : Store) (source : Source) : Logged Store := do
  let locations ← source.list "" st.indexName
  let catalog ← gather source .empty locations
  return { st with catalog := catalog }

/-- A full load that also tells how many packages it found. -/
def rescan (st : Store) (source : Source) : Logged (Nat × Store) := do
  let fresh ← st.reloadAll source
  return (fresh.catalog.size, fresh)

def openAll (source : Source) (indexName : String) : Logged Store :=
  (new indexName).reloadAll source

/-- Reads the index of a loaded package again. The package may come back under another name. -/
def reload (st : Store) (source : Source) (package : String) :
    Logged (Except Index.LoadError (Index × Store)) :=
  match st.catalog.find? package with
  | none => pure (.error (.unknownPackage package))
  | some current => do
    match ← loadAt source current.location with
    | .error e => return .error e
    | .ok fresh =>
      return .ok (fresh,
        { st with catalog := (st.catalog.erase package).insert fresh.package fresh })

end Store

end HelpAudit
