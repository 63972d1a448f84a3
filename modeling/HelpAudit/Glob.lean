/-!
Glob patterns for names and paths. `?` stands for a character, `*` for any run, `[...]` and
`[!...]` for one character of a class or outside it, and `**`, a whole segment, for any folders.
-/
namespace HelpAudit.Glob

inductive Item where
  | single (c : Char)
  | range (low high : Char)
  deriving DecidableEq

def Item.holds (c : Char) : Item → Bool
  | .single d => c == d
  | .range low high => low ≤ c && c ≤ high

inductive Atom where
  | literal (c : Char)
  | anyChar
  | within (items : List Item)
  | outside (items : List Item)
  | anyRun
  | anyFolders
  deriving DecidableEq

/-- The items of a class; a hyphen between two characters makes a range. -/
def items : List Char → List Item
  | a :: '-' :: b :: cs => .range a b :: items cs
  | a :: cs => .single a :: items cs
  | [] => []

/-- Splits the text after an opening bracket at the bracket that closes the class; the class holds
one character at least. -/
def classEnd? : List Char → Option (List Char × List Char)
  | [] => none
  | c :: cs =>
    match cs.dropWhile (· != ']') with
    | _ :: rest => some (c :: cs.takeWhile (· != ']'), rest)
    | [] => none

/-- The class after an opening bracket. -/
def class? : List Char → Option (Atom × List Char)
  | '!' :: cs => (classEnd? cs).map fun (inner, rest) => (.outside (items inner), rest)
  | cs => (classEnd? cs).map fun (inner, rest) => (.within (items inner), rest)

/-- Reads a pattern. `opens` tells that a segment starts here. `fuel` bounds the characters left. -/
def atoms? : (fuel : Nat) → (opens : Bool) → List Char → Option (List Atom)
  | 0, _, cs => if cs.isEmpty then some [] else none
  | _ + 1, _, [] => some []
  | fuel + 1, opens, '*' :: '*' :: cs =>
    if opens then
      match cs with
      | [] => some [.anyFolders]
      | '/' :: rest => (atoms? fuel true rest).map (.anyFolders :: ·)
      | _ => none
    else none
  | fuel + 1, _, '*' :: cs => (atoms? fuel false cs).map (.anyRun :: ·)
  | fuel + 1, _, '?' :: cs => (atoms? fuel false cs).map (.anyChar :: ·)
  | fuel + 1, _, '[' :: cs =>
    match class? cs with
    | some (atom, rest) => (atoms? fuel false rest).map (atom :: ·)
    | none => none
  | fuel + 1, _, c :: cs => (atoms? fuel (c == '/') cs).map (.literal c :: ·)

def parseChars? (cs : List Char) : Option (List Atom) := atoms? cs.length true cs

def parse? (pattern : String) : Option (List Atom) := parseChars? pattern.toList

def Atom.accepts (c : Char) : Atom → Bool
  | .literal d => c == d
  | .anyChar => true
  | .within items => items.any (·.holds c)
  | .outside items => !items.any (·.holds c)
  | .anyRun | .anyFolders => false

/-- Whether a name, which has no slash, matches. Folders stand for nothing or for all of it. -/
def matchesName : List Atom → List Char → Bool
  | [], cs => cs.isEmpty
  | .anyFolders :: atoms, cs => matchesName atoms cs || matchesName atoms []
  | .anyRun :: atoms, [] => matchesName atoms []
  | .anyRun :: atoms, c :: cs => matchesName atoms (c :: cs) || matchesName (.anyRun :: atoms) cs
  | _ :: _, [] => false
  | atom :: atoms, c :: cs => atom.accepts c && matchesName atoms cs
  termination_by atoms cs => atoms.length + cs.length

/-- A segment of a path pattern. -/
inductive Step where
  | anywhere
  | name (atoms : List Atom)
  deriving DecidableEq

def Step.ofSegment? (segment : List Char) : Option Step :=
  if segment = ['*', '*'] then some .anywhere else (parseChars? segment).map .name

/-- Neighbouring `**` count once. -/
def collapse : List Step → List Step
  | .anywhere :: .anywhere :: steps => collapse (.anywhere :: steps)
  | step :: steps => step :: collapse steps
  | [] => []

/-- The segments of a pattern for the paths below a folder. The pattern must be sound as a whole
and segment by segment; an empty last segment does not count. -/
def steps? (pattern : String) : Option (List Step) := do
  let _ ← parse? pattern
  let segments := pattern.toList.splitOnP (· == '/')
  let segments := if segments.getLast? = some [] then segments.dropLast else segments
  return collapse (.anywhere :: (← segments.mapM Step.ofSegment?))

/-- The text of a pattern that holds no wildcard. -/
def literal? (atoms : List Atom) : Option (List Char) :=
  atoms.mapM fun
    | .literal c => some c
    | _ => none

end HelpAudit.Glob
