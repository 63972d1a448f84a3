import HelpAudit.Yaml.Tag

/-!
The tokens of YAML text. Indentation becomes tokens too: a block collection has one at its start
and one at its end. Whether something is a key shows only at the colon after it, so a place that may
turn out to start a key is remembered, and the key's token is put in there later.
-/
namespace HelpAudit.Yaml

inductive Token where
  | directive (d : Directive)
  | documentStart
  | documentEnd
  | blockSequence
  | blockMapping
  | blockEnd
  | flowSequence
  | flowSequenceEnd
  | flowMapping
  | flowMappingEnd
  | blockEntry
  | flowEntry
  | key
  | value
  | alias (name : String)
  | anchor (name : String)
  | tag (handle suffix : String)
  | scalar (isPlain : Bool) (text : String)

/-- A place that may start a key: the number of the token there, and where it is in the text. A
required one is the only thing that can stand there. -/
structure KeyStart where
  isRequired : Bool
  number : Nat
  line : Nat
  column : Nat

/-- A key takes one line, of 1024 characters at most before its colon. -/
def KeyStart.isStale (k : KeyStart) (c : Cursor) : Bool :=
  k.line < c.line || k.column + 1024 < c.column

/-- A text that was read up to the cursor. Open block collections are given by their columns, the
innermost first; each open flow collection keeps the possible key of the collection around it. -/
structure Reading where
  cursor : Cursor
  indents : List Nat
  key : Option KeyStart
  outerKeys : List (Option KeyStart)
  keyAllowed : Bool
  tokens : Array Token

namespace Reading

def start (cs : List Char) : Reading := ⟨.start cs, [], none, [], true, #[]⟩

def inFlow (r : Reading) : Bool := !r.outerKeys.isEmpty

/-- The least column of lines that belong to something inside the present block collection. -/
def innerColumn (r : Reading) : Nat := (r.indents.head?.map (· + 1)).getD 0

def push (t : Token) (r : Reading) : Reading := { r with tokens := r.tokens.push t }

/-- Puts tokens in front of the one with a number. -/
def insert (n : Nat) (ts : List Token) (r : Reading) : Reading :=
  { r with tokens := r.tokens.take n ++ ts.toArray ++ r.tokens.drop n }

def advance (n : Nat) (r : Reading) : Reading := { r with cursor := r.cursor.advance n }

def allowKey (b : Bool) (r : Reading) : Reading := { r with keyAllowed := b }

/-- A token that a number of characters write. -/
def mark (n : Nat) (t : Token) (r : Reading) : Reading := (r.advance n).push t

/-- Skips blanks, comments and line breaks. In block collections a new line may start a key, and a
tab may not stand where a key may. -/
def skipFiller (inFlow : Bool) : (keyAllowed inComment : Bool) → (line column : Nat) →
    List Char → Bool × Cursor
  | keyAllowed, _, line, column, [] => (keyAllowed, ⟨[], line, column⟩)
  | keyAllowed, inComment, line, column, c :: cs =>
    if isBreak c then skipFiller inFlow (keyAllowed || !inFlow) false (line + 1) 0 cs
    else if inComment || c == '#' then skipFiller inFlow keyAllowed true line (column + 1) cs
    else if c == ' ' || (c == '\t' && (inFlow || !keyAllowed)) then
      skipFiller inFlow keyAllowed false line (column + 1) cs
    else (keyAllowed, ⟨c :: cs, line, column⟩)

def toNext (r : Reading) : Reading :=
  let (allowed, c) := skipFiller r.inFlow r.keyAllowed false r.cursor.line r.cursor.column
    r.cursor.rest
  { r with keyAllowed := allowed, cursor := c }

/-- A possible key that has become stale is none; a required one must not. -/
def freshKey? (c : Cursor) : Option KeyStart → Option (Option KeyStart)
  | some k => if !k.isStale c then some (some k) else if k.isRequired then none else some none
  | none => some none

def dropStale? (r : Reading) : Option Reading := do
  let key ← freshKey? r.cursor r.key
  let outer ← r.outerKeys.mapM (freshKey? r.cursor)
  return { r with key := key, outerKeys := outer }

/-- Nothing before the cursor is a key any more. -/
def forgetKey? (r : Reading) : Option Reading :=
  if (r.key.map (·.isRequired)).getD false then none else some { r with key := none }

/-- Remembers the cursor as a possible start of a key. -/
def noteKey? (r : Reading) : Option Reading :=
  if r.keyAllowed then do
    let r ← r.forgetKey?
    let required := !r.inFlow && r.indents.head? == some r.cursor.column
    return { r with key := some ⟨required, r.tokens.size, r.cursor.line, r.cursor.column⟩ }
  else some r

/-- A block collection at a column deeper than the present one is new. -/
def isDeeper (column : Nat) (r : Reading) : Bool :=
  !r.inFlow && (r.indents.head?.all (· < column))

/-- Opens a block collection at the cursor unless the present one is there already. -/
def openBlock (t : Token) (r : Reading) : Reading :=
  if r.isDeeper r.cursor.column then
    { r with indents := r.cursor.column :: r.indents }.push t
  else r

/-- Closes the block collections that are not `kept`. -/
def closeBlocks (kept : Nat → Bool) (r : Reading) : Reading :=
  if r.inFlow then r
  else
    { r with
      indents := r.indents.dropWhile (!kept ·)
      tokens := r.tokens ++ ((r.indents.takeWhile (!kept ·)).map fun _ => Token.blockEnd).toArray }

/-- Closes all block collections. -/
def closeAll? (r : Reading) : Option Reading := (r.closeBlocks fun _ => false).forgetKey?

def documentMark? (t : Token) (r : Reading) : Option Reading := do
  return ((← r.closeAll?).allowKey false).mark 3 t

def directive? (r : Reading) : Option Reading := do
  let r ← r.closeAll?
  let (d, c) ← Yaml.directive? r.cursor
  return { r.allowKey false with cursor := c }.push (.directive d)

def openFlow? (t : Token) (r : Reading) : Option Reading := do
  let r ← r.noteKey?
  return { r with key := none, outerKeys := r.key :: r.outerKeys }.allowKey true |>.mark 1 t

/-- A closing bracket takes the possible key of the collection around it back. -/
def closeFlow? (t : Token) (r : Reading) : Option Reading := do
  let r ← r.forgetKey?
  return { r with key := r.outerKeys.head?.join, outerKeys := r.outerKeys.tail }.allowKey false
    |>.mark 1 t

def flowEntry? (r : Reading) : Option Reading := do
  return (← r.forgetKey?).allowKey true |>.mark 1 .flowEntry

def blockEntry? (r : Reading) : Option Reading :=
  if r.inFlow || r.keyAllowed then do
    return (← (r.openBlock .blockSequence).forgetKey?).allowKey true |>.mark 1 .blockEntry
  else none

/-- A key that a question mark announces. -/
def key? (r : Reading) : Option Reading :=
  if r.inFlow || r.keyAllowed then do
    return (← (r.openBlock .blockMapping).forgetKey?).allowKey (!r.inFlow) |>.mark 1 .key
  else none

/-- A colon makes a key of what was remembered. Without that it stands after an announced key. -/
def value? (r : Reading) : Option Reading :=
  match r.key with
  | some k =>
    let r :=
      if r.isDeeper k.column then
        { r with indents := k.column :: r.indents }.insert k.number [.blockMapping, .key]
      else r.insert k.number [.key]
    some ({ r with key := none }.allowKey false |>.mark 1 .value)
  | none =>
    if r.inFlow || r.keyAllowed then
      some ((r.openBlock .blockMapping).allowKey (!r.inFlow) |>.mark 1 .value)
    else none

/-- A name may end before a gap or one of these. -/
def endsName (c : Char) : Bool := "?:,]\x7d%@\x60".toList.contains c

/-- The name of an anchor or alias after its mark. -/
def name? (c : Cursor) : Option (String × Cursor) :=
  let (name, c) := (c.advance 1).span isWord
  if !name.isEmpty && (atGap c.rest || c.rest.head?.any endsName) then some (.ofList name, c)
  else none

def anchorOrAlias? (t : String → Token) (r : Reading) : Option Reading := do
  let r ← r.noteKey?
  let (name, c) ← name? r.cursor
  return { r.allowKey false with cursor := c }.push (t name)

def tag? (r : Reading) : Option Reading := do
  let r ← r.noteKey?
  let (handle, suffix, c) ← Yaml.tag? r.inFlow r.cursor
  return { r.allowKey false with cursor := c }.push (.tag handle suffix)

def blockScalar? (isFolded : Bool) (r : Reading) : Option Reading := do
  let r ← r.forgetKey?
  let (text, c) ← block? isFolded (r.indents.headD 0) r.innerColumn r.cursor
  return { r.allowKey true with cursor := c }.push (.scalar false (.ofList text))

def quotedScalar? (quote : Char) (r : Reading) : Option Reading := do
  let r ← r.noteKey?
  let (text, c) ← quoted? quote (r.cursor.rest.length + 1) (r.cursor.advance 1)
  return { r.allowKey false with cursor := c }.push (.scalar false (.ofList text))

/-- A plain scalar; a line break behind it allows a key again. -/
def plainScalar? (r : Reading) : Option Reading := do
  let r ← r.noteKey?
  let (text, c, broken) ←
    plain? r.inFlow r.innerColumn (r.cursor.rest.length + 1) [] r.cursor
  return { r.allowKey broken with cursor := c }.push (.scalar true (.ofList text))

/-- Characters that start no plain scalar. -/
def isIndicator (c : Char) : Bool := "-?:,[]\x7b\x7d#&*!|>'\"%@\x60".toList.contains c

/-- Dashes, question marks and colons can start a plain scalar with what follows them. -/
def startsPlain (inFlow : Bool) (c : Char) (cs : List Char) : Bool :=
  !(isGap c || isIndicator c) || (c == '-' && !((cs.head?.map isBlank).getD false))
    || (!inFlow && (c == '?' || c == ':') && !atGap cs)

/-- The token or tokens that start with a character; `cs` stands behind it. -/
def token? (c : Char) (cs : List Char) (r : Reading) : Option Reading :=
  if r.cursor.column == 0 && c == '%' then r.directive?
  else if r.cursor.hasMark '-' then r.documentMark? .documentStart
  else if r.cursor.hasMark '.' then r.documentMark? .documentEnd
  else if c == '[' then r.openFlow? .flowSequence
  else if c == '\x7b' then r.openFlow? .flowMapping
  else if c == ']' then r.closeFlow? .flowSequenceEnd
  else if c == '\x7d' then r.closeFlow? .flowMappingEnd
  else if c == ',' then r.flowEntry?
  else if c == '-' && atGap cs then r.blockEntry?
  else if c == '?' && (r.inFlow || atGap cs) then r.key?
  else if c == ':' && (r.inFlow || atGap cs) then r.value?
  else if c == '*' then r.anchorOrAlias? .alias
  else if c == '&' then r.anchorOrAlias? .anchor
  else if c == '!' then r.tag?
  else if (c == '|' || c == '>') && !r.inFlow then r.blockScalar? (c == '>')
  else if c == '\'' || c == '"' then r.quotedScalar? c
  else if startsPlain r.inFlow c cs then r.plainScalar?
  else none

/-- Reads tokens to the end of the text. -/
def finish? : (fuel : Nat) → Reading → Option (Array Token)
  | 0, _ => none
  | fuel + 1, r => do
    let r ← r.toNext.dropStale?
    let r := r.closeBlocks (· ≤ r.cursor.column)
    match r.cursor.rest with
    | [] => return (← r.closeAll?).tokens
    | c :: cs => finish? fuel (← r.token? c cs)

end Reading

/-- The tokens of a text. A second byte order mark at its start takes a column. -/
def Token.ofText? (text : String) : Option (List Token) := do
  let cs ← prepare? text
  let r := Reading.start cs
  let r := if cs.head? = some '\ufeff' then r.advance 1 else r
  return (← r.finish? (cs.length + 1)).toList

end HelpAudit.Yaml
