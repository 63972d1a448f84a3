import HelpAudit.Yaml.Scalar

/-!
Tags, written `!suffix`, `!handle!suffix` or `!<uri>`, and the directives that stand before a
document. A handle stands for the start of a tag.
-/
namespace HelpAudit.Yaml

/-- The commas and brackets of flow collections may stand in some URIs only. -/
def isUriChar (hasFlowMarks : Bool) (c : Char) : Bool :=
  isWord c || ";/?:@&=+$.%!~*'()".toList.contains c
    || (hasFlowMarks && (c == ',' || c == '[' || c == ']'))

/-- A byte written as a percent sign and two hexadecimal digits. -/
def octet? : List Char → Option Nat
  | '%' :: a :: b :: _ => Text.hexNumber? [a, b]
  | _ => none

/-- The bytes of one character after the first, added to what the first says. -/
def trailing? : (count : Nat) → (code : Nat) → List Char → Option Nat
  | 0, code, _ => some code
  | n + 1, code, cs => do
    let o ← octet? cs
    if o / 0x40 = 2 then trailing? n (code * 0x40 + o % 0x40) (cs.drop 3) else none

/-- The number of bytes of a character by its first one, and the bits that the first one holds. -/
def lead? (o : Nat) : Option (Nat × Nat) :=
  if o < 0x80 then some (1, o)
  else if o / 0x20 = 6 then some (2, o % 0x20)
  else if o / 0x10 = 14 then some (3, o % 0x10)
  else if o / 0x8 = 30 then some (4, o % 0x8)
  else none

/-- A character written as its bytes, with the number of bytes. Bytes that are not the shortest form
of a character stand for the replacement character. -/
def escapedChar? (cs : List Char) : Option (Char × Nat) := do
  let (width, bits) ← lead? (← octet? cs)
  let code ← trailing? (width - 1) bits (cs.drop 3)
  return (if (Char.ofNat code).utf8Size = width then .ofNat code else '\ufffd', width)

/-- A run of URI characters, maybe empty, and how many characters write it. -/
def uri? (hasFlowMarks : Bool) : (fuel : Nat) → List Char → Option (List Char × Nat)
  | 0, _ => none
  | _ + 1, [] => some ([], 0)
  | fuel + 1, c :: cs =>
    if !isUriChar hasFlowMarks c then some ([], 0)
    else do
      let (d, n) ← if c = '%' then (escapedChar? (c :: cs)).map fun (d, w) => (d, 3 * w)
        else some (c, 1)
      let (ds, m) ← uri? hasFlowMarks fuel ((c :: cs).drop n)
      return (d :: ds, n + m)

/-- A run of URI characters that is not empty, and the place after it. -/
def uriAt? (hasFlowMarks : Bool) (c : Cursor) : Option (List Char × Cursor) := do
  let (text, n) ← uri? hasFlowMarks (c.rest.length + 1) c.rest
  if n = 0 then none else return (text, c.advance n)

/-- What starts like a handle: `!`, a word, and a second `!` if one stands there. -/
def handle : List Char → List Char
  | '!' :: cs =>
    let word := cs.takeWhile isWord
    '!' :: word ++ (cs.drop word.length).head?.toList.filter (· == '!')
  | _ => []

def isFullHandle (h : List Char) : Bool := 2 ≤ h.length && h.getLast? == some '!'

/-- The handle and the suffix of a tag. A verbatim tag and the tag `!` have the empty handle. -/
def tag? (inFlow : Bool) (c : Cursor) : Option (String × String × Cursor) := do
  let (h, suffix, c) ←
    if (c.rest.drop 1).head? == some '<' then do
      let (text, c) ← uriAt? true (c.advance 2)
      if c.rest.head? = some '>' then some ([], text, c.advance 1) else none
    else
      let h := handle c.rest
      if isFullHandle h then do
        let (text, c) ← uriAt? false (c.advance h.length)
        some (h, text, c)
      else do
        let (text, n) ← uri? false (c.rest.length + 1) (c.rest.drop h.length)
        let suffix := h.drop 1 ++ text
        let c := c.advance (h.length + n)
        some (if suffix.isEmpty then ([], ['!'], c) else (['!'], suffix, c))
  if atGap c.rest || (inFlow && c.rest.head? == some ',') then
    return (.ofList h, .ofList suffix, c)
  else none

inductive Directive where
  | version (major minor : Nat)
  | tag (handle leading : String)

/-- A number of one to nine digits. -/
def versionNumber? (c : Cursor) : Option (Nat × Cursor) :=
  let (digits, c) := c.span Char.isDigit
  if digits.isEmpty ∨ 9 < digits.length then none
  else some (digits.foldl (fun n d => n * 10 + (d.toNat - '0'.toNat)) 0, c)

/-- A directive from its `%` on, up to the end of its line. -/
def directive? (c : Cursor) : Option (Directive × Cursor) := do
  let (name, c) := (c.advance 1).span isWord
  if !atGap c.rest then none
  let c := c.skip isBlank
  if name = "YAML".toList then
    let (major, c) ← versionNumber? c
    if c.rest.head? ≠ some '.' then none
    let (minor, c) ← versionNumber? (c.advance 1)
    return (.version major minor, ← c.lineEnd?)
  else if name = "TAG".toList then
    let h := handle c.rest
    let c := c.advance h.length
    if !(h == ['!'] || isFullHandle h) || !((c.rest.head?.map isBlank).getD false) then none
    let (leading, c) ← uriAt? true (c.skip isBlank)
    if !atGap c.rest then none
    return (.tag (.ofList h) (.ofList leading), ← c.lineEnd?)
  else none

end HelpAudit.Yaml
