import HelpAudit.Index.Contents
import HelpAudit.NameMap
import HelpAudit.Resource

/-! Help indexes: the files, topics and table of contents that a package declares. -/
namespace HelpAudit

structure HelpFile where
  path : String
  title : String
  deriving DecidableEq, Inhabited

/-- A topic and the file it lives in, which the index need not declare. -/
structure Topic where
  id : String
  file : String
  caption : String
  aliases : List String
  deriving DecidableEq, Inhabited

/-- `docRoot` and `location` are resource paths of the documentation folder and the index file. -/
structure Index where
  package : String
  description : String
  docRoot : String
  location : String
  files : List HelpFile
  topics : NameMap Topic
  contents : Contents

/-- The loaded indexes by package name. -/
abbrev Catalog := NameMap Index

namespace Index

def file? (ix : Index) (path : String) : Option HelpFile := ix.files.find? (·.path == path)

def hasFile (ix : Index) (path : String) : Bool := (ix.file? path).isSome

def title? (ix : Index) (path : String) : Option String := (ix.file? path).map (·.title)

/-- The first topic in order of ids that has the alias. -/
def aliased? (topics : NameMap Topic) (name : String) : Option Topic :=
  topics.values.find? (·.aliases.contains name)

/-- A topic by its id or else by an alias. -/
def lookup (ix : Index) (name : String) : Option Topic :=
  (ix.topics.find? name).or (aliased? ix.topics name)

/-- The topics that live in a file, in order of ids. -/
def topicsOf (ix : Index) (file : String) : List Topic := ix.topics.values.filter (·.file == file)

/-- The index file as reports show it, relative to the documentation folder. -/
def indexFile (ix : Index) : String := Resource.relative ix.docRoot ix.location

/-- The resource of a file of the package. -/
def resource (ix : Index) (file : String) : String := Resource.join ix.docRoot file

end Index

end HelpAudit
