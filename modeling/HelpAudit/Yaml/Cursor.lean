/-! Characters of YAML text, and places in it. Lines of such a text end in a line feed or one of
Unicode's two separators; `prepare?` brings a text into that form. -/
namespace HelpAudit.Yaml

def isBreak (c : Char) : Bool := c == '\n' || c == '\u2028' || c == '\u2029'
def isBlank (c : Char) : Bool := c == ' ' || c == '\t'
def isGap (c : Char) : Bool := isBlank c || isBreak c

/-- Letters, digits, `_` and `-`, of ASCII only: the characters of names. -/
def isWord (c : Char) : Bool := c.isAlphanum || c == '_' || c == '-'

/-- A blank, a line break or the end stands here. -/
def atGap : List Char → Bool
  | [] => true
  | c :: _ => isGap c

/-- A line break or the end stands here. -/
def atLineEnd : List Char → Bool
  | [] => true
  | c :: _ => isBreak c

/-- A character that may stand in a text. Most control characters may not. -/
def isAllowed (c : Char) : Bool :=
  let n := c.toNat
  n == 0x9 || n == 0xA || n == 0xD || (0x20 ≤ n && n ≤ 0x7E) || n == 0x85
    || (0xA0 ≤ n && n ≤ 0xFFFD) || 0x10000 ≤ n

/-- The other ways to end a line become line feeds. -/
def unifyBreaks : List Char → List Char
  | [] => []
  | '\r' :: '\n' :: cs => '\n' :: unifyBreaks cs
  | c :: cs => (if c = '\r' ∨ c = '\u0085' then '\n' else c) :: unifyBreaks cs

/-- A byte order mark may stand before the text. -/
def prepare? (text : String) : Option (List Char) :=
  if text.toList.all isAllowed then
    match text.toList with
    | '\ufeff' :: cs => some (unifyBreaks cs)
    | cs => some (unifyBreaks cs)
  else none

/-- What is left of a text, and where it starts. -/
structure Cursor where
  rest : List Char
  line : Nat
  column : Nat

namespace Cursor

def start (cs : List Char) : Cursor := ⟨cs, 0, 0⟩

/-- Moves over characters. -/
def advance : Nat → Cursor → Cursor
  | n + 1, ⟨c :: cs, line, column⟩ =>
    advance n (if isBreak c then ⟨cs, line + 1, 0⟩ else ⟨cs, line, column + 1⟩)
  | _, c => c

/-- The characters up to the first that is not of a kind, and the place after them. -/
def span (p : Char → Bool) (c : Cursor) : List Char × Cursor :=
  let taken := c.rest.takeWhile p
  (taken, c.advance taken.length)

def skip (p : Char → Bool) (c : Cursor) : Cursor := (c.span p).2

/-- Three marks `m` that begin a line and have a gap behind them. -/
def hasMark (m : Char) (c : Cursor) : Bool :=
  c.column == 0 && c.rest.take 3 == [m, m, m] && atGap (c.rest.drop 3)

/-- Where a document begins or ends. -/
def atDocumentMark (c : Cursor) : Bool := c.hasMark '-' || c.hasMark '.'

/-- Blanks and a comment up to the end of the line, and the line break. -/
def lineEnd? (c : Cursor) : Option Cursor :=
  let c := c.skip isBlank
  let c := if c.rest.head? = some '#' then c.skip (!isBreak ·) else c
  if atLineEnd c.rest then some (c.advance 1) else none

end Cursor

end HelpAudit.Yaml
