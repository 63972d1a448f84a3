import HelpAudit.Text.Digit
import HelpAudit.Yaml.Cursor

/-!
The text of scalars: plain, between quotes, and in blocks of lines. A gap with line breaks is
folded: one break becomes a blank, of several the first is dropped.
-/
namespace HelpAudit.Yaml

/-- What a first line break and the gap's other ones leave of themselves. Only a line feed folds. -/
def foldBreaks : List Char → List Char
  | [] => []
  | b :: bs => if b = '\n' then (if bs.isEmpty then [' '] else bs) else b :: bs

/-- What blanks and breaks in a scalar stand for; blanks around a break go. -/
def foldGap (gap : List Char) : List Char :=
  if gap.any isBreak then foldBreaks (gap.filter isBreak) else gap

/-! Plain scalars. -/

def isFlowMark (c : Char) : Bool :=
  c == ',' || c == '[' || c == ']' || c == '\x7b' || c == '\x7d'

/-- Characters of a plain scalar up to a gap or a mark that ends it. A colon before a mark is
refused in a flow collection. -/
def plainWord? (inFlow : Bool) : List Char → Option (List Char)
  | [] => some []
  | c :: cs =>
    if isGap c then some []
    else if inFlow && c == ':' && (cs.head?.map fun d => isFlowMark d || d == '?').getD false then
      none
    else if (c == ':' && atGap cs) || (inFlow && isFlowMark c) then some []
    else (plainWord? inFlow cs).map (c :: ·)

/-- A tab stands where a line is to be indented. -/
def hasTabIndent (indent : Nat) (gap : List Char) : Bool :=
  (gap.splitOnP isBreak).tail.any fun line => (line.take indent).contains '\t'

/-- The rest of a plain scalar after a gap, and whether a line break stands before the place after
it. Lines that are indented by less than `indent` do not belong to it, outside flow collections. -/
def plain? (inFlow : Bool) (indent : Nat) :
    (fuel : Nat) → (gap : List Char) → Cursor → Option (List Char × Cursor × Bool)
  | 0, _, _ => none
  | fuel + 1, gap, c =>
    if c.atDocumentMark || c.rest.head? == some '#' then some ([], c, gap.any isBreak)
    else do
      let word ← plainWord? inFlow c.rest
      if word.isEmpty then return ([], c, gap.any isBreak)
      let text := foldGap gap ++ word
      let (next, after) := (c.advance word.length).span isGap
      if next.isEmpty then return (text, after, false)
      if hasTabIndent indent next then none
      else if !inFlow && after.column < indent then return (text, after, next.any isBreak)
      else
        let (more, c, broken) ← plain? inFlow indent fuel next after
        return (text ++ more, c, broken)

/-! Quoted scalars. -/

/-- The character that an escape of one letter stands for. -/
def letterEscape? : Char → Option Char
  | '0' => some '\x00'
  | 'a' => some '\x07'
  | 'b' => some '\x08'
  | 't' | '\t' => some '\t'
  | 'n' => some '\n'
  | 'v' => some '\x0b'
  | 'f' => some '\x0c'
  | 'r' => some '\r'
  | 'e' => some '\x1b'
  | ' ' => some ' '
  | '"' => some '"'
  | '/' => some '/'
  | '\\' => some '\\'
  | 'N' => some '\u0085'
  | '_' => some '\u00a0'
  | 'L' => some '\u2028'
  | 'P' => some '\u2029'
  | _ => none

def hexEscapeLength? : Char → Option Nat
  | 'x' => some 2
  | 'u' => some 4
  | 'U' => some 8
  | _ => none

/-- The character that an escape after a backslash stands for, and how many characters write it. -/
def escape? : List Char → Option (Char × Nat)
  | [] => none
  | e :: cs =>
    match hexEscapeLength? e with
    | none => (letterEscape? e).map (·, 1)
    | some n => do
      let code ← if (cs.take n).length = n then Text.hexNumber? (cs.take n) else none
      if code < 0xD800 ∨ (0xDFFF < code ∧ code ≤ 0x10FFFF) then return (.ofNat code, n + 1)
      else none

/-- What stands between quotes: a character and the number of characters that write it. -/
def quotedChar? (quote : Char) : List Char → Option (Char × Nat)
  | [] => none
  | c :: cs =>
    if c = '\\' ∧ quote = '"' then (escape? cs).map fun (d, n) => (d, n + 1)
    else if c = '\'' ∧ quote = '\'' then some ('\'', 2)
    else some (c, 1)

/-- The end of a quoted scalar: its quote, but not a single quote written twice. -/
def atQuote (quote : Char) : List Char → Bool
  | [] => false
  | c :: cs => c == quote && !(quote == '\'' && cs.head? == some '\'')

/-- The rest of a quoted scalar. A backslash at the end of a line joins the lines. -/
def quoted? (quote : Char) : (fuel : Nat) → Cursor → Option (List Char × Cursor)
  | 0, _ => none
  | fuel + 1, c =>
    if c.atDocumentMark then none
    else if atQuote quote c.rest then some ([], c.advance 1)
    else if quote == '"' && c.rest.head? == some '\\' && !(c.rest.drop 1).isEmpty
        && atLineEnd (c.rest.drop 1) then do
      let (gap, after) := (c.advance 2).span isGap
      let (text, c) ← quoted? quote fuel after
      return (gap.filter isBreak ++ text, c)
    else
      let (gap, after) := c.span isGap
      if gap.isEmpty then do
        let (d, n) ← quotedChar? quote c.rest
        let (text, c) ← quoted? quote fuel (c.advance n)
        return (d :: text, c)
      else do
        let (text, c) ← quoted? quote fuel after
        return (foldGap gap ++ text, c)

/-! Block scalars. -/

/-- What becomes of the line breaks at the end of a block. -/
inductive Chomping where
  | strip
  | clip
  | keep
  deriving DecidableEq

def chomping? : Char → Option Chomping
  | '-' => some .strip
  | '+' => some .keep
  | _ => none

def increment? (c : Char) : Option Nat :=
  if c.isDigit ∧ c ≠ '0' then some (c.toNat - '0'.toNat) else none

/-- The indicators after the mark of a block: at most one for the end and one for the indentation,
in either order. Also the number of characters that write them. -/
def blockHeader : List Char → Chomping × Option Nat × Nat
  | [] => (.clip, none, 0)
  | a :: cs =>
    match chomping? a, increment? a with
    | some ch, _ =>
      match cs.head?.bind increment? with
      | some n => (ch, some n, 2)
      | none => (ch, none, 1)
    | none, some n =>
      match cs.head?.bind chomping? with
      | some ch => (ch, some n, 2)
      | none => (.clip, some n, 1)
    | none, none => (.clip, none, 0)

/-- The breaks of empty lines, the deepest column reached and the place of the next text. At most
`indent` blanks of a line are skipped, all if it is not known yet. -/
def blockGap? (indent : Option Nat) :
    (fuel : Nat) → (deepest : Nat) → Cursor → Option (List Char × Nat × Cursor)
  | 0, _, _ => none
  | fuel + 1, deepest, c =>
    let blanks := (c.rest.takeWhile (· == ' ')).length
    let c := c.advance (match indent with
      | none => blanks
      | some i => min blanks (i - c.column))
    let deepest := max deepest c.column
    let isShort := match indent with
      | none => true
      | some i => c.column < i
    match c.rest with
    | [] => some ([], deepest, c)
    | b :: _ =>
      if isShort && b == '\t' then none
      else if isBreak b then do
        let (bs, deepest, c) ← blockGap? indent fuel deepest (c.advance 1)
        return (b :: bs, deepest, c)
      else some ([], deepest, c)

/-- The lines of a block whose text starts at column `indent`. The break before a line and the empty
lines after that break are held until it is known what follows; they are returned at the end. -/
def blockLines? (isFolded : Bool) (indent : Nat) :
    (fuel : Nat) → (held gap : List Char) → (wasBlank : Bool) → Cursor →
      Option (List Char × List Char × List Char × Cursor)
  | 0, _, _, _, _ => none
  | fuel + 1, held, gap, wasBlank, c =>
    if c.column = indent ∧ c.rest ≠ [] then do
      let startsBlank := (c.rest.head?.map isBlank).getD false
      let joint :=
        if isFolded && held == ['\n'] && !wasBlank && !startsBlank then
          if gap.isEmpty then [' '] else []
        else held
      let (line, c) := c.span (!isBreak ·)
      let (more, _, after) ← blockGap? (some indent) (c.rest.length + 1) 0 (c.advance 1)
      let (text, lastHeld, lastGap, c) ←
        blockLines? isFolded indent fuel (c.rest.take 1) more startsBlank after
      return (joint ++ gap ++ line ++ text, lastHeld, lastGap, c)
    else some ([], held, gap, c)

/-- A block scalar, from its mark on. Its lines are indented at least by `least`; an indicator
counts from the column `base` of the collection around it. -/
def block? (isFolded : Bool) (base least : Nat) (c : Cursor) : Option (List Char × Cursor) := do
  let (chomping, increment, n) := blockHeader (c.rest.drop 1)
  let c ← (c.advance (n + 1)).lineEnd?
  let indent := increment.map (base + ·)
  let (gap, deepest, c) ← blockGap? indent (c.rest.length + 1) 0 c
  let (text, held, rest, c) ← blockLines? isFolded (indent.getD (max 1 (max deepest least)))
    (c.rest.length + 1) [] gap false c
  return (text ++ (if chomping = .strip then [] else held)
    ++ (if chomping = .keep then rest else []), c)

end HelpAudit.Yaml
