/-!
Resource paths: where a help resource lies below the packages directory, written with forward
slashes. The canonical form has no empty, `.` or `..` segment and no slash at either end.
-/
namespace HelpAudit.Resource

abbrev Segment := List Char

/-- A path may be written with either slash. -/
def isSeparator (c : Char) : Bool := c == '/' || c == '\\'

/-- One more piece of a path; the segments before it stand innermost first. Going up from the top
stays there. -/
def step (before : List Segment) : Segment → List Segment
  | [] => before
  | ['.'] => before
  | ['.', '.'] => before.tail
  | s => s :: before

def segments (path : String) : List Segment :=
  ((path.toList.splitOnP isSeparator).foldl step []).reverse

def render (segs : List Segment) : String := .ofList (['/'].intercalate segs)

def normalize (path : String) : String := render (segments path)

def join (base rest : String) : String := normalize (base ++ "/" ++ rest)

/-- A segment of a canonical path. -/
def IsPlain (s : Segment) : Prop :=
  s ≠ [] ∧ s ≠ ['.'] ∧ s ≠ ['.', '.'] ∧ ∀ c ∈ s, isSeparator c = false

def IsCanonical (path : String) : Prop := ∃ segs, (∀ s ∈ segs, IsPlain s) ∧ path = render segs

/-- The folder that holds a resource; the top has itself. -/
def folder (path : String) : String := render (segments path).dropLast

/-- The first segment, empty for the top. -/
def top (path : String) : String := .ofList ((segments path).head?.getD [])

/-- The last segment of a written path. -/
def leaf (path : String) : String :=
  .ofList ((path.toList.splitOnP (· == '/')).getLast?.getD [])

/-- How the rest of a path is written below a folder; the empty folder holds every path. -/
def below? (root path : String) : Option String :=
  if root.isEmpty then some path
  else ((root.toList ++ ['/']).isPrefixOf? path.toList).map .ofList

/-- A folder contains itself and what lies below it by whole segments. -/
def contains (root path : String) : Bool := path == root || (below? root path).isSome

/-- The segments that lead from one folder to a path: up as often as needed, then down. -/
def route : (base path : List Segment) → List Segment
  | [], path => path
  | base, [] => base.map fun _ => ['.', '.']
  | b :: base, p :: path =>
    if b = p then route base path else ((b :: base).map fun _ => ['.', '.']) ++ p :: path

def relative (base path : String) : String := render (route (segments base) (segments path))

end HelpAudit.Resource
