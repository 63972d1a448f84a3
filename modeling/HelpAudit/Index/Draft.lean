import HelpAudit.Event
import HelpAudit.Index.Basic

/-!
Indexes in the making. A draft takes declarations one by one: the last title of a file and the
first declaration of a topic stand. Building it gives every file a topic of its own name.
-/
namespace HelpAudit

inductive Declaration where
  | description (text : String)
  | location (path : String)
  | file (path title : String)
  | topic (topic : Topic)
  | entry (parent : Option Nat) (node : Contents.Node)
  | edge (parent child : Nat)

structure Draft where
  package : String
  description : String
  docRoot : String
  location : Option String
  files : List HelpFile
  topics : NameMap Topic
  contents : Contents
  events : List Event

namespace Draft

def start (package docRoot : String) : Draft where
  package := package
  description := ""
  docRoot := Resource.normalize docRoot
  location := none
  files := []
  topics := .empty
  contents := .empty
  events := []

def note (d : Draft) (e : Event) : Draft := { d with events := d.events ++ [e] }

/-- A path that is declared again keeps its place and takes the new title. -/
def setTitle (path title : String) : List HelpFile → List HelpFile
  | [] => [⟨path, title⟩]
  | f :: fs => if f.path = path then ⟨path, title⟩ :: fs else f :: setTitle path title fs

def addTopic (d : Draft) (t : Topic) : Draft :=
  match d.topics.find? t.id with
  | some kept => d.note (.topicRedeclared d.package t.id kept.file t.file)
  | none => { d with topics := d.topics.insert t.id t }

def declare (d : Draft) : Declaration → Draft
  | .description text => { d with description := text }
  | .location path => { d with location := some (Resource.normalize path) }
  | .file path title => { d with files := setTitle path title d.files }
  | .topic t => d.addTopic t
  | .entry parent node => { d with contents := d.contents.push parent node }
  | .edge parent child => { d with contents := d.contents.link parent child }

def declareAll (d : Draft) (ds : List Declaration) : Draft := ds.foldl declare d

/-- The file that a name of the table of contents stands for: that of a topic with this id, the
file of this path, or that of a topic with this alias. -/
def fileFor? (d : Draft) (name : String) : Option String :=
  ((d.topics.find? name).map (·.file)).or
    (((d.files.find? (·.path == name)).map (·.path)).or
      ((Index.aliased? d.topics name).map (·.file)))

/-- The topic that a file has without declaring one. -/
def ownTopic (f : HelpFile) : Topic := ⟨f.path, f.path, f.title, []⟩

def build (d : Draft) : Index where
  package := d.package
  description := d.description
  docRoot := d.docRoot
  location := d.location.getD (Resource.join d.docRoot "hyperhelp.json")
  files := d.files
  topics := d.files.foldl (fun ts f => ts.insertIfNew f.path (ownTopic f)) d.topics
  contents := d.contents

end Draft

/-- An index that declarations lead to. -/
def Index.IsBuilt (ix : Index) : Prop :=
  ∃ package docRoot ds, ix = ((Draft.start package docRoot).declareAll ds).build

end HelpAudit
