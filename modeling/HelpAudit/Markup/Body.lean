/-! What the bodies of anchors and links say: segments between colons. -/
namespace HelpAudit.Markup

/-- The text before the first colon, and the text after it if there is one. -/
def splitColon (cs : List Char) : List Char × Option (List Char) :=
  match cs.dropWhile (· != ':') with
  | [] => (cs, none)
  | _ :: after => (cs.takeWhile (· != ':'), some after)

structure AnchorBody where
  topic : String
  text : String
  deriving DecidableEq

/-- The first colon ends the topic. -/
def AnchorBody.parse (body : String) : AnchorBody :=
  let (topic, text) := splitColon body.toList
  ⟨.ofList topic, .ofList (text.getD [])⟩

/-- A link names a topic, perhaps in another package, and may show a text. -/
structure LinkBody where
  package : Option String
  topic : Option String
  text : String
  deriving DecidableEq

def nonEmpty? (cs : List Char) : Option String := if cs.isEmpty then none else some (.ofList cs)

/-- One segment is a topic, two are topic and text, three are package, topic and text. The text
keeps the colons after the second. -/
def LinkBody.parse (body : String) : LinkBody :=
  match splitColon body.toList with
  | (topic, none) => ⟨none, nonEmpty? topic, ""⟩
  | (first, some rest) =>
    match splitColon rest with
    | (text, none) => ⟨none, nonEmpty? first, .ofList text⟩
    | (topic, some text) => ⟨nonEmpty? first, nonEmpty? topic, .ofList text⟩

end HelpAudit.Markup
