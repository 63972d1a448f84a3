import HelpAudit.Resource

/-!
Paths as the file system writes them. They are compared and taken apart as text; nothing here looks
at a disk. Main notions: the components of a path, its parent, and the resource that a path names
below a root.
-/
namespace HelpAudit.FilePath

inductive Component where
  | root
  | here
  | up
  | name (text : List Char)
  deriving DecidableEq

def pieces (path : String) : List (List Char) := path.toList.splitOnP (· == '/')

def isAbsolute (path : String) : Bool := path.toList.head? == some '/'

/-- Repeated slashes and an inner `.` take no step. -/
def takesStep (piece : List Char) : Bool := piece != [] && piece != ['.']

def Component.ofPiece : List Char → Component
  | ['.'] => .here
  | ['.', '.'] => .up
  | text => .name text

/-- The root of an absolute path and a leading `.` of a relative one are components. -/
def components (path : String) : List Component :=
  match pieces path with
  | [] => []
  | first :: rest =>
    let start :=
      if isAbsolute path then [.root] else if first.isEmpty then [] else [Component.ofPiece first]
    start ++ (rest.filter takesStep).map .ofPiece

/-- An absolute second path stands alone, and so does any path joined to the empty one. -/
def join (base rest : String) : String :=
  if isAbsolute rest || base.isEmpty then rest
  else if base.toList.getLast? = some '/' then base ++ rest
  else base ++ "/" ++ rest

/-- Drops pieces that take no step from the end of a relative path, written last piece first. -/
def trimRelative : List (List Char) → List (List Char)
  | [] => []
  | [first] => if first.isEmpty then [] else [first]
  | p :: ps => if takesStep p then p :: ps else trimRelative ps

def render (pieces : List (List Char)) : String := .ofList (['/'].intercalate pieces)

/-- The path without its last component, as it is written; none for a root and the empty path. -/
def parent? (path : String) : Option String :=
  if isAbsolute path then
    match (pieces path).tail.reverse.dropWhile (!takesStep ·) with
    | [] => none
    | _ :: above => some ("/" ++ render (above.dropWhile (!takesStep ·)).reverse)
  else
    match trimRelative (pieces path).reverse with
    | [] => none
    | _ :: above => some (render (trimRelative above).reverse)

/-- The components that lead from `base` to `path`. Shared components count until the paths first
differ; an `..` of `base` after that cannot be undone. -/
def route? (differ : Bool) : (base path : List Component) → Option (List Component)
  | [], path => some path
  | _ :: base, [] => (route? true base []).map (.up :: ·)
  | b :: base, p :: path =>
    if !differ && b = p then route? false base path
    else if b = .here then (route? true base path).map (p :: ·)
    else if b = .up then none
    else some ((b :: base).map (fun _ => .up) ++ p :: path)

def Component.text : Component → List Char
  | .root => []
  | .here => ['.']
  | .up => ['.', '.']
  | .name text => text

/-- How the components lead from `base` to `path`. An absolute path is its own way from a relative
base; there is no way from an absolute base to a relative path. -/
def way? (path base : String) : Option (List Component) :=
  if isAbsolute path == isAbsolute base then route? false (components base) (components path)
  else if isAbsolute path then some (components path)
  else none

def relative? (path base : String) : Option String :=
  (way? path base).map fun cs => render (cs.map (·.text))

/-- The resource that a path names below a root; none for a path outside it. -/
def resource? (path root : String) : Option String :=
  match way? path root with
  | none => none
  | some cs =>
    if cs.contains .up || cs.contains .root then none
    else some (Resource.normalize (render (cs.map (·.text))))

end HelpAudit.FilePath
