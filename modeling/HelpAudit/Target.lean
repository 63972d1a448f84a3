import HelpAudit.Index.Basic

/-! Which package and files a path asks for. -/
namespace HelpAudit

inductive Scope where
  | single
  | package
  deriving DecidableEq

def Scope.word : Scope → String
  | .single => "single"
  | .package => "package"

/-- `files` are relative to the documentation folder, in the order in which they are scanned. -/
structure Target where
  scope : Scope
  index : Index
  files : List String

namespace Target

def wholePackage (ix : Index) : Target := ⟨.package, ix, ix.files.map (·.path)⟩

def singleFile (ix : Index) (file : String) : Target := ⟨.single, ix, [Resource.normalize file]⟩

/-- Whether the documentation folder of a package contains a resource. -/
def owns (resource : String) (ix : Index) : Bool :=
  ix.docRoot.isEmpty || Resource.contains ix.docRoot resource

/-- Of two packages the later one, unless the earlier one has the longer root. -/
def deeper (best : Option Index) (ix : Index) : Option Index :=
  match best with
  | some b => if ix.docRoot.utf8ByteSize < b.docRoot.utf8ByteSize then some b else some ix
  | none => some ix

def owner? (catalog : Catalog) (resource : String) : Option Index :=
  (catalog.values.filter (owns resource)).foldl deeper none

/-- The documentation folder or the index file of the owner asks for the whole package, any other
resource for that file. -/
def resolve? (catalog : Catalog) (path : String) : Option Target :=
  let resource := Resource.normalize path
  (owner? catalog resource).map fun ix =>
    if resource = ix.docRoot ∨ resource = ix.location then wholePackage ix
    else singleFile ix ((Resource.below? ix.docRoot resource).getD resource)

end Target

end HelpAudit
