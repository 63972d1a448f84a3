import HelpAudit.Json.Value

/-!
Reading JSON documents. A document is first read as written: strings may hold unpaired surrogates,
numbers may be out of range, and nesting is free. Only values that are really used are held to
those limits, by `Written.value?`.
-/
namespace HelpAudit.Json

/-- A value as written. A string is `none` when it holds a surrogate without its partner. -/
inductive Written where
  | null
  | bool (value : Bool)
  | number (text : NumberText)
  | string (value : Option String)
  | array (items : List Written)
  | object (members : List (Option String × Written))
  deriving Inhabited

namespace Written

mutual
/-- The value, when its strings and numbers are sound and it nests at most `room` deep. -/
def value? (room : Nat) : Written → Option Json
  | .null => some .null
  | .bool b => some (.bool b)
  | .number t => t.value?.map .number
  | .string s => s.map .string
  | .array items => if room = 0 then none else (itemValues? (room - 1) items).map .array
  | .object members => if room = 0 then none else (memberValues? (room - 1) members).map .object

def itemValues? (room : Nat) : List Written → Option (List Json)
  | [] => some []
  | w :: ws => do
    let v ← value? room w
    let vs ← itemValues? room ws
    return v :: vs

def memberValues? (room : Nat) : List (Option String × Written) → Option (List (String × Json))
  | [] => some []
  | (name, w) :: ws => do
    let n ← name
    let v ← value? room w
    let vs ← memberValues? room ws
    return (n, v) :: vs
end

def isSpace (c : Char) : Bool := c == ' ' || c == '\n' || c == '\t' || c == '\r'

def skipSpace (cs : List Char) : List Char := cs.dropWhile isSpace

/-- A UTF-16 unit written by four hexadecimal digits. -/
def unit? : List Char → Option (Nat × List Char)
  | a :: b :: c :: d :: rest => do
    let a ← Text.hexValue? a
    let b ← Text.hexValue? b
    let c ← Text.hexValue? c
    let d ← Text.hexValue? d
    return (((a * 16 + b) * 16 + c) * 16 + d, rest)
  | _ => none

def isLeading (u : Nat) : Bool := 0xD800 ≤ u && u < 0xDC00
def isTrailing (u : Nat) : Bool := 0xDC00 ≤ u && u < 0xE000

/-- The character that a leading and a trailing surrogate stand for. -/
def pair (u v : Nat) : Char := .ofNat (0x10000 + (u - 0xD800) * 0x400 + (v - 0xDC00))

def escape? : Char → Option Char
  | '"' => some '"'
  | '\\' => some '\\'
  | '/' => some '/'
  | 'b' => some '\x08'
  | 'f' => some '\x0c'
  | 'n' => some '\n'
  | 'r' => some '\r'
  | 't' => some '\t'
  | _ => none

/-- One character of a string, or none for an unpaired surrogate, and what stands after it. -/
def character? : List Char → Option (Option Char × List Char)
  | '\\' :: 'u' :: cs => do
    let (u, rest) ← unit? cs
    if isTrailing u then return (none, rest)
    else if isLeading u then
      match rest with
      | '\\' :: 'u' :: ds =>
        let (v, after) ← unit? ds
        if isTrailing v then return (some (pair u v), after) else return (none, rest)
      | _ => return (none, rest)
    else return (some (.ofNat u), rest)
  | '\\' :: c :: cs => (escape? c).map fun d => (some d, cs)
  | c :: cs => if c.toNat < 0x20 then none else some (some c, cs)
  | [] => none

/-- The characters up to the closing quote, last first. `sound` tells that none is missing. -/
def stringFrom : (fuel : Nat) → (sound : Bool) → (before cs : List Char) →
    Option (Option String × List Char)
  | 0, _, _, _ => none
  | _ + 1, sound, before, '"' :: rest =>
    some (if sound then some (.ofList before.reverse) else none, rest)
  | fuel + 1, sound, before, cs =>
    match character? cs with
    | some (some c, rest) => stringFrom fuel sound (c :: before) rest
    | some (none, rest) => stringFrom fuel false before rest
    | none => none

/-- A string after its opening quote. -/
def string? (cs : List Char) : Option (Option String × List Char) :=
  stringFrom (cs.length + 1) true [] cs

def digits (cs : List Char) : List Char × List Char :=
  (cs.takeWhile Char.isDigit, cs.dropWhile Char.isDigit)

/-- One digit at least. -/
def digits? (cs : List Char) : Option (List Char × List Char) :=
  let (ds, rest) := digits cs
  if ds.isEmpty then none else some (ds, rest)

def fraction? : List Char → Option (Option (List Char) × List Char)
  | '.' :: cs => (digits? cs).map fun (ds, rest) => (some ds, rest)
  | cs => some (none, cs)

def exponentSign : List Char → Bool × List Char
  | '-' :: cs => (true, cs)
  | '+' :: cs => (false, cs)
  | cs => (false, cs)

def exponent? : List Char → Option (Option (Bool × List Char) × List Char)
  | c :: cs =>
    if c == 'e' || c == 'E' then
      let (isNegative, rest) := exponentSign cs
      (digits? rest).map fun (ds, after) => (some (isNegative, ds), after)
    else some (none, c :: cs)
  | [] => some (none, [])

/-- A zero stands alone before the fraction. -/
def whole? (cs : List Char) : Option (List Char × List Char) := do
  let (ds, rest) ← digits? cs
  if ds.head? = some '0' ∧ ds.length ≠ 1 then none else some (ds, rest)

def number? (cs : List Char) : Option (NumberText × List Char) := do
  let (isNegative, cs) := match cs with
    | '-' :: r => (true, r)
    | r => (false, r)
  let (whole, cs) ← whole? cs
  let (fraction, cs) ← fraction? cs
  let (exponent, cs) ← exponent? cs
  return (⟨isNegative, whole, fraction, exponent⟩, cs)

mutual
/-- A value at the head of the text. `fuel` bounds twice the characters that are left. -/
def read? : (fuel : Nat) → List Char → Option (Written × List Char)
  | 0, _ => none
  | fuel + 1, cs =>
    match skipSpace cs with
    | 'n' :: 'u' :: 'l' :: 'l' :: r => some (.null, r)
    | 't' :: 'r' :: 'u' :: 'e' :: r => some (.bool true, r)
    | 'f' :: 'a' :: 'l' :: 's' :: 'e' :: r => some (.bool false, r)
    | '"' :: r => (string? r).map fun (s, rest) => (.string s, rest)
    | '[' :: r =>
      match skipSpace r with
      | ']' :: rest => some (.array [], rest)
      | rest => (readItems? fuel rest).map fun (ws, after) => (.array ws, after)
    | '\x7b' :: r =>
      match skipSpace r with
      | '\x7d' :: rest => some (.object [], rest)
      | rest => (readMembers? fuel rest).map fun (ms, after) => (.object ms, after)
    | r => (number? r).map fun (t, rest) => (.number t, rest)

/-- The items up to the closing bracket, one at least. -/
def readItems? : (fuel : Nat) → List Char → Option (List Written × List Char)
  | 0, _ => none
  | fuel + 1, cs => do
    let (w, r) ← read? fuel cs
    match skipSpace r with
    | ',' :: rest =>
      let (ws, after) ← readItems? fuel rest
      return (w :: ws, after)
    | ']' :: rest => return ([w], rest)
    | _ => none

/-- The members up to the closing brace, one at least. -/
def readMembers? : (fuel : Nat) → List Char → Option (List (Option String × Written) × List Char)
  | 0, _ => none
  | fuel + 1, cs =>
    match skipSpace cs with
    | '"' :: r => do
      let (name, r) ← string? r
      match skipSpace r with
      | ':' :: r =>
        let (w, r) ← read? fuel r
        match skipSpace r with
        | ',' :: rest =>
          let (ms, after) ← readMembers? fuel rest
          return ((name, w) :: ms, after)
        | '\x7d' :: rest => return ([(name, w)], rest)
        | _ => none
      | _ => none
    | _ => none
end

/-- A document holds one value and white space around it. -/
def parse? (text : String) : Option Written :=
  let cs := text.toList
  match read? (2 * cs.length + 2) cs with
  | some (w, rest) => if (skipSpace rest).isEmpty then some w else none
  | none => none

end Written

/-- Values nest at most this deep, the outermost counted. -/
def maxDepth : Nat := 127

def parse? (text : String) : Option Json := (Written.parse? text).bind (·.value? maxDepth)

end HelpAudit.Json
