import HelpAudit.Rule.Context

/-! Anchors name topics that the index assigns to the file they stand in. -/
namespace HelpAudit.Anchor

def ruleName : String := "anchor"

/-- The topic of anchors that stay out of the index. -/
def noTopic : String := "_none"

inductive Fault where
  | hardSpace (topic : String)
  | doubleSpace (topic : String)
  | reserved (topic : String)
  | unknown (topic : String)
  | elsewhere (topic file : String)
  | repeated (topic : String)
  deriving DecidableEq

def Fault.severity : Fault → Severity
  | .reserved _ | .unknown _ => .warning
  | .hardSpace _ | .doubleSpace _ | .elsewhere .. | .repeated _ => .error

def Fault.message : Fault → String
  | .hardSpace topic => "Topic '" ++ topic ++ "' contains nonbreaking spaces or tabs"
  | .doubleSpace topic => "Topic '" ++ topic ++ "' contains consecutive whitespace characters"
  | .reserved topic => "The topic '" ++ topic ++ "' is reserved for internal use"
  | .unknown topic => "Topic '" ++ topic ++ "' was not found in the help index"
  | .elsewhere topic file =>
    "The topic '" ++ topic ++ "' is defined in another file ('" ++ file ++ "')"
  | .repeated topic => "The topic '" ++ topic ++ "' already appears in this file"

def hasDoubleSpace : List Char → Bool
  | ' ' :: ' ' :: _ => true
  | _ :: cs => hasDoubleSpace cs
  | [] => false

def isReserved (topic : String) : Bool := topic.toList.head? == some '_'

/-- The first fault of an anchor's topic. `seen` holds what stood in the file before it. -/
def fault? (ix : Index) (file : String) (seen : List String) (topic : String) : Option Fault :=
  if hasHardSpace topic then some (.hardSpace topic)
  else if hasDoubleSpace topic.toList then some (.doubleSpace topic)
  else if isReserved topic then if topic = noTopic then none else some (.reserved topic)
  else
    match ix.lookup topic with
    | none => some (.unknown topic)
    | some t =>
      if t.file ≠ file then some (.elsewhere topic t.file)
      else if seen.contains topic || seen.contains t.id then some (.repeated topic)
      else none

/-- The names that an anchor's topic goes by: itself and the id of the topic it names. -/
def namesOf (ix : Index) (topic : String) : List String :=
  topic :: ((ix.lookup topic).map (·.id)).toList

/-- What a file holds so far: the names seen, those with a sound anchor, and the faults. -/
structure Progress where
  seen : List String
  present : List String
  faults : List (Markup.Span × Fault)

/-- A file's name counts as a topic that is there from the start. -/
def Progress.start (file : String) : Progress := ⟨[file], [file], []⟩

def Progress.add (ix : Index) (file : String) (p : Progress) (s : Markup.Span) : Progress :=
  let topic := (Markup.AnchorBody.parse s.body).topic
  let names := namesOf ix topic
  match fault? ix file p.seen topic with
  | some f => ⟨names ++ p.seen, p.present, p.faults ++ [(s, f)]⟩
  | none => ⟨names ++ p.seen, if isReserved topic then p.present else names ++ p.present, p.faults⟩

def progress (ix : Index) (file : String) (spans : List Markup.Span) : Progress :=
  spans.foldl (Progress.add ix file) (.start file)

def missingMessage (topic file : String) : String :=
  "Topic '" ++ topic ++ "' appears in the index but not in '" ++ file ++ "'"

/-- The faults of a document's anchors, then the topics that have no sound anchor in it. -/
def check (cx : Context) (d : Document) : List Diagnostic :=
  let p := progress cx.index d.file d.anchors
  p.faults.map (fun f => ⟨f.2.severity, ruleName, d.file, d.position f.1, f.2.message⟩)
    ++ ((cx.index.topicsOf d.file).filter fun t => !p.present.contains t.id).map
        fun t => cx.indexIssue .warning ruleName (missingMessage t.id d.file)

end HelpAudit.Anchor
