import HelpAudit.Index.Draft
import HelpAudit.Json.Reader

/-!
Manifests: what the JSON text of a help index says before its file entries are looked at. The
members may stand in an object, where unknown names are skipped, or by position in an array.
-/
namespace HelpAudit.Index

open Json (Written)

/-- An entry of the table of contents as the manifest lists it. -/
inductive Entry where
  | node (topic : String) (caption : Option String) (children : List Entry)
  deriving Inhabited

/-- The members of an entry that were found so far. -/
structure EntryParts where
  topic : Option String
  caption : Option (Option String)
  children : Option (List Entry)

namespace Entry

def caption? : Json → Option (Option String)
  | .null => some none
  | .string s => some (some s)
  | _ => none

mutual
/-- A bare topic, or an object with a topic, perhaps a caption and perhaps children. -/
def ofJson? : Json → Option Entry
  | .string topic => some (.node topic none [])
  | .object members => do
    let parts ← parts? members
    let topic ← parts.topic
    return .node topic (parts.caption.getD none) (parts.children.getD [])
  | _ => none

/-- Each known name may stand once. -/
def parts? : List (String × Json) → Option EntryParts
  | [] => some ⟨none, none, none⟩
  | (name, .array items) :: members => do
    let parts ← parts? members
    if name = "topic" ∨ name = "caption" then none
    else if name = "children" then
      if parts.children.isSome then none
      else return { parts with children := some (← listOfJson? items) }
    else return parts
  | (name, value) :: members => do
    let parts ← parts? members
    if name = "topic" then
      if parts.topic.isSome then none else return { parts with topic := some (← value.string?) }
    else if name = "caption" then
      if parts.caption.isSome then none
      else return { parts with caption := some (← caption? value) }
    else if name = "children" then none
    else return parts

def listOfJson? : List Json → Option (List Entry)
  | [] => some []
  | v :: vs => do
    let e ← ofJson? v
    let es ← listOfJson? vs
    return e :: es
end

end Entry

structure Manifest where
  package : String
  description : String
  docRoot : Option String
  files : List (String × Json)
  contents : List Entry

namespace Manifest

/-- Nesting that is left for the members of the outermost value. -/
def memberDepth : Nat := Json.maxDepth - 1

def text? : Written → Option String
  | .string s => s
  | _ => none

def optionalText? : Written → Option (Option String)
  | .null => some none
  | .string s => s.map some
  | _ => none

def files? (w : Written) : Option (List (String × Json)) :=
  match w.value? memberDepth with
  | some (.object members) => some (Json.distinct members)
  | _ => none

def contents? (w : Written) : Option (List Entry) :=
  match w.value? memberDepth with
  | some (.array items) => Entry.listOfJson? items
  | _ => none

/-- Reads a member, or takes the default for one that is absent. -/
def readOr {α : Type} (read? : Written → Option α) (default : α) : Option Written → Option α
  | some w => read? w
  | none => some default

def ofMembers? (package description docRoot files contents : Option Written) : Option Manifest := do
  return {
    package := ← package.bind text?
    description := ← readOr text? "" description
    docRoot := ← readOr optionalText? none docRoot
    files := ← readOr files? [] files
    contents := ← readOr contents? [] contents }

/-- The one value of a name; the outer option fails when there are more. -/
def member? (members : List (String × Written)) (name : String) : Option (Option Written) :=
  match members.filter (·.1 == name) with
  | [] => some none
  | [m] => some (some m.2)
  | _ => none

def ofWritten? : Written → Option Manifest
  | .object members => do
    let members ← members.mapM fun m => m.1.map fun name => (name, m.2)
    ofMembers? (← member? members "package") (← member? members "description")
      (← member? members "doc_root") (← member? members "help_files")
      (← member? members "help_contents")
  | .array items =>
    if items.length ≤ 5 then ofMembers? items[0]? items[1]? items[2]? items[3]? items[4]? else none
  | _ => none

def parse? (text : String) : Option Manifest := (Written.parse? text).bind ofWritten?

end Manifest

end HelpAudit.Index
