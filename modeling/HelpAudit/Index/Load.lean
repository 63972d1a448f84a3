import HelpAudit.Index.Manifest
import HelpAudit.Text.Blank

/-!
Loading a help index from its JSON text. Each entry of `help_files` is an array of a title and the
topics of the file; the first entry or item that is not so fails the load. Entries of the table of
contents that name no topic are noted and give way to their children.
-/
namespace HelpAudit.Index

/-- The topic's caption is its id unless the entry gives another. -/
def topicOf (file id : String) (caption : Option String) (aliases : List String) : Topic :=
  ⟨id, file, caption.getD id, aliases⟩

namespace TopicEntry

def text (v : Json) : Except EntryFault String :=
  match v with
  | .string s => .ok s
  | v => .error (.wrongKind v .string)

def optionalText (v : Json) : Except EntryFault (Option String) :=
  match v with
  | .null => .ok none
  | v => (text v).map some

def texts (v : Json) : Except EntryFault (List String) :=
  match v with
  | .array items => items.mapM text
  | v => .error (.wrongKind v .sequence)

/-- The members of a topic entry that were found so far. -/
structure Parts where
  topic : Option String
  caption : Option (Option String)
  aliases : Option (List String)

/-- Members are read in order, so the first fault counts; unknown names are skipped. -/
def Parts.read (p : Parts) (m : String × Json) : Except EntryFault Parts :=
  if m.1 = "topic" then (text m.2).map fun t => { p with topic := some t }
  else if m.1 = "caption" then (optionalText m.2).map fun c => { p with caption := some c }
  else if m.1 = "aliases" then (texts m.2).map fun a => { p with aliases := some a }
  else .ok p

/-- An object of members, or an array of topic, caption and aliases. -/
def read (file : String) : Json → Except EntryFault Topic
  | .object members => do
    let parts ← (Json.distinct members).foldlM Parts.read ⟨none, none, none⟩
    match parts.topic with
    | some id => return topicOf file id (parts.caption.getD none) (parts.aliases.getD [])
    | none => .error .noTopic
  | .array [] => .error .emptyList
  | .array (t :: items) => do
    let id ← text t
    let caption ← match items[0]? with
      | some c => optionalText c
      | none => .ok none
    let aliases ← match items[1]? with
      | some a => texts a
      | none => .ok []
    if 2 < items.length then .error (.longList (items.length + 1))
    else return topicOf file id caption aliases
  | v => .error (.wrongKind v .topicEntry)

end TopicEntry

/-- The topics that the items declare, up to the first fault. -/
def topicDeclarations (file : String) : List Json → List Declaration × Option Fault
  | [] => ([], none)
  | v :: vs =>
    match TopicEntry.read file v with
    | .ok t =>
      let (ds, fault) := topicDeclarations file vs
      (.topic t :: ds, fault)
    | .error e => ([], some (.badEntry file e))

def fileDeclarations (file : String) (v : Json) : List Declaration × Option Fault :=
  match v with
  | .array (.string title :: items) =>
    let (ds, fault) := topicDeclarations file items
    (.file file title :: ds, fault)
  | .array _ => ([], some (.noTitle file))
  | _ => ([], some (.notArray file))

/-- What the file entries declare, up to the first fault. -/
def declarations : List (String × Json) → List Declaration × Option Fault
  | [] => ([], none)
  | (file, v) :: rest =>
    match fileDeclarations file v with
    | (ds, some fault) => (ds, some fault)
    | (ds, none) =>
      let (more, fault) := declarations rest
      (ds ++ more, fault)

mutual
/-- Adds an entry below `parent`; the children of an unknown topic take its place. -/
def addEntry (fileFor? : String → Option String) (parent : Option Nat) (d : Draft) : Entry → Draft
  | .node topic caption children =>
    match fileFor? topic with
    | some file =>
      addEntries fileFor? (some d.contents.nodes.size)
        (d.declare (.entry parent ⟨topic, file, caption, []⟩)) children
    | none =>
      addEntries fileFor? parent (d.note (.unknownContentsTopic d.package topic)) children

def addEntries (fileFor? : String → Option String) (parent : Option Nat) (d : Draft) :
    List Entry → Draft
  | [] => d
  | e :: es => addEntries fileFor? parent (addEntry fileFor? parent d e) es
end

/-- A manifest's root lies below the package folder, the first of the location; without one it is
the folder of the index. -/
def documentRoot (location : String) : Option String → String
  | some root => Resource.join (Resource.top location) root
  | none => Resource.folder location

/-- Loads the manifest that lies at `location`. -/
def load (text location : String) : Logged (Except LoadError Index) :=
  let location := Resource.normalize location
  match Manifest.parse? text with
  | none => pure (.error (.notJson location))
  | some m =>
    if Text.allBlank m.package.toList then pure (.error (.invalid location .blankPackage))
    else
      let (ds, fault) := declarations m.files
      let draft := (Draft.start m.package (documentRoot location m.docRoot)).declareAll
        (.description m.description :: .location location :: ds)
      match fault with
      | some fault => ⟨.error (.invalid location fault), draft.events⟩
      | none =>
        let full := addEntries draft.fileFor? none draft m.contents
        ⟨.ok full.build, full.events⟩

end HelpAudit.Index
