import HelpAudit.Text.Digit

/-! Blanks, comments, strings and keys of TOML text. A reader returns what it read and the rest. -/
namespace HelpAudit.Toml

abbrev Reader (α : Type) := List Char → Option (α × List Char)

def isBlank (c : Char) : Bool := c == ' ' || c == '\t'
def skipBlank (cs : List Char) : List Char := cs.dropWhile isBlank

/-- A character that may stand in a comment or string: no control character but the tab. -/
def isVisible (c : Char) : Bool := c == '\t' || (0x20 ≤ c.toNat && c.toNat != 0x7F)

def newline? : List Char → Option (List Char)
  | '\n' :: cs => some cs
  | '\r' :: '\n' :: cs => some cs
  | _ => none

/-- A comment, if one stands here, up to the end of the line. -/
def comment? : List Char → Option (List Char)
  | '#' :: cs =>
    let rest := cs.dropWhile isVisible
    if rest.isEmpty || (newline? rest).isSome then some rest else none
  | cs => some cs

/-- Blanks and a comment, then the end of the line or of the text. -/
def lineEnd? (cs : List Char) : Option (List Char) := do
  let rest ← comment? (skipBlank cs)
  if rest.isEmpty then some [] else newline? rest

/-- Blanks, comments and line ends. -/
def filler? : (fuel : Nat) → List Char → Option (List Char)
  | 0, _ => none
  | fuel + 1, cs => do
    let rest ← comment? (skipBlank cs)
    match newline? rest with
    | some after => filler? fuel after
    | none => some rest

/-- The character that `count` hexadecimal digits write. -/
def hexChar? (count : Nat) : Reader Char := fun cs =>
  if (cs.take count).length = count then do
    let n ← Text.hexNumber? (cs.take count)
    if n < 0xD800 ∨ (0xDFFF < n ∧ n ≤ 0x10FFFF) then some (.ofNat n, cs.drop count) else none
  else none

/-- What stands after a backslash. -/
def escape? : Reader Char
  | 'b' :: cs => some ('\x08', cs)
  | 't' :: cs => some ('\t', cs)
  | 'n' :: cs => some ('\n', cs)
  | 'f' :: cs => some ('\x0c', cs)
  | 'r' :: cs => some ('\r', cs)
  | 'e' :: cs => some ('\x1b', cs)
  | '"' :: cs => some ('"', cs)
  | '\\' :: cs => some ('\\', cs)
  | 'x' :: cs => hexChar? 2 cs
  | 'u' :: cs => hexChar? 4 cs
  | 'U' :: cs => hexChar? 8 cs
  | _ => none

/-- A string on one line after its opening quote; only the double quote knows escapes. -/
def line? (quote : Char) : (fuel : Nat) → Reader (List Char)
  | 0, _ => none
  | _ + 1, [] => none
  | fuel + 1, c :: cs =>
    if c = quote then some ([], cs)
    else if c = '\\' ∧ quote = '"' then do
      let (d, rest) ← escape? cs
      let (ds, after) ← line? quote fuel rest
      return (d :: ds, after)
    else if isVisible c then do
      let (ds, after) ← line? quote fuel cs
      return (c :: ds, after)
    else none

/-- A backslash at the end of a line takes the white space after it away. -/
def joined? (fuel : Nat) (cs : List Char) : Option (List Char) :=
  match newline? (skipBlank cs) with
  | some rest => some (skip fuel rest)
  | none => none
where
  skip : Nat → List Char → List Char
    | 0, cs => cs
    | fuel + 1, cs =>
      match newline? (skipBlank cs) with
      | some rest => skip fuel rest
      | none => skipBlank cs

/-- A string over several lines after its three opening quotes. Up to two quotes may stand before
the three closing ones. -/
def lines? (quote : Char) : (fuel : Nat) → Reader (List Char)
  | 0, _ => none
  | _ + 1, [] => none
  | fuel + 1, c :: cs =>
    if c = quote then
      let run := ((c :: cs).takeWhile (· == quote)).length
      if 3 ≤ run then
        let kept := min run 5 - 3
        some (List.replicate kept quote, (c :: cs).drop (kept + 3))
      else do
        let (ds, after) ← lines? quote fuel cs
        return (c :: ds, after)
    else if c = '\\' ∧ quote = '"' then
      match joined? fuel cs with
      | some rest => lines? quote fuel rest
      | none => do
        let (d, rest) ← escape? cs
        let (ds, after) ← lines? quote fuel rest
        return (d :: ds, after)
    else
      match newline? (c :: cs) with
      | some rest => do
        let (ds, after) ← lines? quote fuel rest
        return ('\n' :: ds, after)
      | none =>
        if isVisible c then do
          let (ds, after) ← lines? quote fuel cs
          return (c :: ds, after)
        else none

/-- A string after its opening quote; two more quotes make it one over several lines. -/
def string? (quote : Char) : Reader (List Char) := fun cs =>
  match cs with
  | a :: b :: rest =>
    if a = quote ∧ b = quote then
      lines? quote (cs.length + 1) ((newline? rest).getD rest)
    else line? quote (cs.length + 1) cs
  | _ => line? quote (cs.length + 1) cs

def isBare (c : Char) : Bool := c.isAlphanum || c == '_' || c == '-'

def simpleKey? : Reader String
  | '"' :: cs => (line? '"' (cs.length + 1) cs).map fun (k, rest) => (.ofList k, rest)
  | '\'' :: cs => (line? '\'' (cs.length + 1) cs).map fun (k, rest) => (.ofList k, rest)
  | cs =>
    if (cs.takeWhile isBare).isEmpty then none
    else some (.ofList (cs.takeWhile isBare), cs.dropWhile isBare)

/-- Keys between dots, one at least. -/
def key? : (fuel : Nat) → Reader (List String)
  | 0, _ => none
  | fuel + 1, cs => do
    let (k, rest) ← simpleKey? (skipBlank cs)
    match skipBlank rest with
    | '.' :: more =>
      let (ks, after) ← key? fuel more
      return (k :: ks, after)
    | after => return ([k], after)

end HelpAudit.Toml
