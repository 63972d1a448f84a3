import HelpAudit.Yaml.Token

/-! YAML nodes, made from tokens. A text is read as one document at most. -/
namespace HelpAudit.Yaml

/-- An alias names an anchor. Of a tag `none` says that the node has none of its own. -/
inductive Node where
  | alias (anchor : Nat)
  | scalar (anchor : Option Nat) (tag : Option String) (isPlain : Bool) (text : String)
  | sequence (anchor : Option Nat) (items : List Node)
  | mapping (anchor : Option Nat) (members : List (Node × Node))
  deriving Inhabited

namespace Node

/-- What stands where a node was left out. -/
def empty : Node := .scalar none none true ""

def anchor? : Node → Option Nat
  | .alias _ => none
  | .scalar a _ _ _ | .sequence a _ | .mapping a _ => a

mutual
/-- The nodes with an anchor in and below a node, in the order in which they start. -/
def anchored (a : Nat) (n : Node) : List Node :=
  (if n.anchor? = some a then [n] else []) ++
    match n with
    | .sequence _ items => anchoredAmong a items
    | .mapping _ ms => anchoredPairs a ms
    | .alias _ | .scalar .. => []

def anchoredAmong (a : Nat) : List Node → List Node
  | [] => []
  | n :: ns => anchored a n ++ anchoredAmong a ns

def anchoredPairs (a : Nat) : List (Node × Node) → List Node
  | [] => []
  | (k, v) :: ms => anchored a k ++ anchored a v ++ anchoredPairs a ms
end

/-- What a node of a document stands for: an alias for the last node with its anchor. -/
def target? (root : Node) : Node → Option Node
  | .alias a => (root.anchored a).getLast?
  | n => some n

end Node

/-- The tokens that are left, and the anchors by name. -/
structure Remaining where
  tokens : List Token
  anchors : List (String × Nat)

abbrev Reader := StateT Remaining Option

namespace Reader

def peek : Reader (Option Token) := do return (← get).tokens.head?

def skip : Reader Unit := modify fun st => { st with tokens := st.tokens.tail }

/-- A name with its number; one that is in use is given away anew. -/
def setName (name : String) (n : Nat) (anchors : List (String × Nat)) : List (String × Nat) :=
  if (anchors.lookup name).isSome then anchors.map fun a => if a.1 == name then (name, n) else a
  else anchors ++ [(name, n)]

/-- An anchor is numbered by how many names are in use. -/
def declare (name : String) : Reader Nat := do
  let st ← get
  let n := st.anchors.length
  set { st with anchors := setName name n st.anchors }
  return n

def refer (name : String) : Reader Nat := do
  match (← get).anchors.lookup name with
  | some n => return n
  | none => failure

/-- The anchor and the tag before a node, in either order. -/
def properties : Reader (Option String × Option (String × String)) := do
  match ← peek with
  | some (.anchor a) =>
    skip
    match ← peek with
    | some (.tag h s) =>
      skip
      return (some a, some (h, s))
    | _ => return (some a, none)
  | some (.tag h s) =>
    skip
    match ← peek with
    | some (.anchor a) =>
      skip
      return (some a, some (h, s))
    | _ => return (none, some (h, s))
  | _ => return (none, none)

/-- What handles stand for, unless a directive says something else. -/
def knownHandles : List (String × String) := [("!", "!"), ("!!", "tag:yaml.org,2002:")]

def fullTag (handles : List (String × String)) : Option (String × String) → Reader (Option String)
  | none => return none
  | some ("", suffix) => return some suffix
  | some (h, suffix) =>
    match (handles ++ knownHandles).lookup h with
    | some leading => return some (leading ++ suffix)
    | none => failure

/-- Left out before some tokens; a node otherwise. -/
def nodeUnless (isNext : Token → Bool) (node : Reader Node) : Reader Node := do
  match ← peek with
  | some t => if isNext t then return .empty else node
  | none => failure

/-- A value after its colon; left out where there is none. -/
def valueUnless (isNext : Token → Bool) (node : Reader Node) : Reader Node := do
  match ← peek with
  | some .value =>
    skip
    nodeUnless isNext node
  | _ => return .empty

def endsEntry : Token → Bool
  | .blockEntry | .blockEnd => true
  | _ => false

def endsIndentless : Token → Bool
  | .blockEntry | .key | .value | .blockEnd => true
  | _ => false

def endsMember : Token → Bool
  | .key | .value | .blockEnd => true
  | _ => false

def endsFlowItem : Token → Bool
  | .flowEntry | .flowSequenceEnd => true
  | _ => false

def endsFlowMember : Token → Bool
  | .flowEntry | .flowMappingEnd => true
  | _ => false

def endsFlowKey (ends : Token → Bool) : Token → Bool
  | .value => true
  | t => ends t

/-- The comma before all items but the first. -/
def comma (isFirst : Bool) : Reader Unit := do
  if !isFirst then
    match ← peek with
    | some .flowEntry => skip
    | _ => failure

mutual
/-- A node. Block collections may start here or not; in a member of a block mapping, a sequence may
stand at the column of the key. -/
def node (handles : List (String × String)) (isBlock isMember : Bool) : (fuel : Nat) → Reader Node
  | 0 => failure
  | fuel + 1 => do
    match ← peek with
    | some (.alias name) =>
      skip
      return .alias (← refer name)
    | _ =>
      let (name, written) ← properties
      let tag ← fullTag handles written
      let anchor ← name.mapM declare
      match ← peek, isBlock, isMember with
      | some .blockEntry, _, true => return .sequence anchor (← indentlessItems handles fuel)
      | some (.scalar isPlain text), _, _ =>
        skip
        return .scalar anchor (tag.filter (· != "!")) isPlain text
      | some .flowSequence, _, _ =>
        skip
        return .sequence anchor (← flowItems handles true fuel)
      | some .flowMapping, _, _ =>
        skip
        return .mapping anchor (← flowMembers handles true fuel)
      | some .blockSequence, true, _ =>
        skip
        return .sequence anchor (← blockItems handles fuel)
      | some .blockMapping, true, _ =>
        skip
        return .mapping anchor (← blockMembers handles fuel)
      | _, _, _ =>
        if anchor.isSome || tag.isSome then return .scalar anchor tag true "" else failure

def blockItems (handles : List (String × String)) : (fuel : Nat) → Reader (List Node)
  | 0 => failure
  | fuel + 1 => do
    match ← peek with
    | some .blockEntry =>
      skip
      let item ← nodeUnless endsEntry (node handles true false fuel)
      return item :: (← blockItems handles fuel)
    | some .blockEnd =>
      skip
      return []
    | _ => failure

def indentlessItems (handles : List (String × String)) : (fuel : Nat) → Reader (List Node)
  | 0 => failure
  | fuel + 1 => do
    match ← peek with
    | some .blockEntry =>
      skip
      let item ← nodeUnless endsIndentless (node handles true false fuel)
      return item :: (← indentlessItems handles fuel)
    | _ => return []

def blockMembers (handles : List (String × String)) : (fuel : Nat) → Reader (List (Node × Node))
  | 0 => failure
  | fuel + 1 => do
    match ← peek with
    | some .key =>
      skip
      let k ← nodeUnless endsMember (node handles true true fuel)
      let v ← valueUnless endsMember (node handles true true fuel)
      return (k, v) :: (← blockMembers handles fuel)
    | some .blockEnd =>
      skip
      return []
    | _ => failure

/-- An item with a key is a mapping of one member. Where its announced key is left out, the token
there is skipped. -/
def flowItems (handles : List (String × String)) (isFirst : Bool) :
    (fuel : Nat) → Reader (List Node)
  | 0 => failure
  | fuel + 1 => do
    match ← peek with
    | some .flowSequenceEnd =>
      skip
      return []
    | _ =>
      comma isFirst
      match ← peek with
      | some .flowSequenceEnd =>
        skip
        return []
      | some .key =>
        skip
        let k ← match ← peek with
          | some .value | some .flowEntry | some .flowSequenceEnd => do
            skip
            pure .empty
          | _ => node handles false false fuel
        let v ← valueUnless endsFlowItem (node handles false false fuel)
        return .mapping none [(k, v)] :: (← flowItems handles false fuel)
      | _ =>
        let item ← node handles false false fuel
        return item :: (← flowItems handles false fuel)

def flowMembers (handles : List (String × String)) (isFirst : Bool) :
    (fuel : Nat) → Reader (List (Node × Node))
  | 0 => failure
  | fuel + 1 => do
    match ← peek with
    | some .flowMappingEnd =>
      skip
      return []
    | _ =>
      comma isFirst
      match ← peek with
      | some .flowMappingEnd =>
        skip
        return []
      | some .key =>
        skip
        let k ← nodeUnless (endsFlowKey endsFlowMember) (node handles false false fuel)
        let v ← valueUnless endsFlowMember (node handles false false fuel)
        return (k, v) :: (← flowMembers handles false fuel)
      | _ =>
        let k ← node handles false false fuel
        return (k, .empty) :: (← flowMembers handles false fuel)
end

end Reader

/-- The handles that directives before a document declare. The version is given at most once, and
each handle too. -/
def handles? (hasVersion : Bool) (handles : List (String × String)) :
    List Token → Option (List (String × String) × List Token)
  | .directive (.version major minor) :: ts =>
    if !hasVersion && major == 1 && (minor == 1 || minor == 2) then handles? true handles ts
    else none
  | .directive (.tag h leading) :: ts =>
    if (handles.lookup h).isSome then none else handles? hasVersion (handles ++ [(h, leading)]) ts
  | ts => some (handles, ts)

/-- No node stands between the start of a document and these tokens. -/
def startsEmpty : List Token → Bool
  | [] | .directive _ :: _ | .documentStart :: _ | .documentEnd :: _ => true
  | _ => false

/-- The node of the only document, and the tokens after it. Directives need a start mark. -/
def Node.document? (ts : List Token) : Option (Node × List Token) := do
  let (handles, rest) ← handles? false [] ts
  let read (ts : List Token) : Option (Node × List Token) := do
    let (n, st) ← (Reader.node handles true false (2 * ts.length + 2)).run ⟨ts, []⟩
    return (n, st.tokens)
  match ts, rest with
  | _, .documentStart :: content =>
    if startsEmpty content then return (.empty, content) else read content
  | .directive _ :: _, _ => none
  | _, _ => read rest

/-- The node of a text, or none for a text without a document. -/
def Node.ofTokens? : List Token → Option (Option Node)
  | [] => some none
  | ts => do
    let (n, rest) ← document? ts
    if rest.all fun | .documentEnd => true | _ => false then return some n else none

def parse? (text : String) : Option (Option Node) := (Token.ofText? text).bind Node.ofTokens?

end HelpAudit.Yaml
