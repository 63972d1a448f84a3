import HelpAudit.FilePath
import HelpAudit.Glob

/-! Directory trees, and places in them. -/
namespace HelpAudit

/-- A file whose bytes are no UTF-8 text has no text. -/
inductive FileTree where
  | file (text : Option String)
  | folder (entries : List (String × FileTree))
  deriving Inhabited

namespace FileTree

def isFile : FileTree → Bool
  | .file _ => true
  | .folder _ => false

def isFolder : FileTree → Bool
  | .file _ => false
  | .folder _ => true

def text? : FileTree → Option String
  | .file text => text
  | .folder _ => none

def entries : FileTree → List (String × FileTree)
  | .file _ => []
  | .folder es => es

def child? (t : FileTree) (name : String) : Option FileTree := t.entries.lookup name

def setEntry (name : String) (t : FileTree) (es : List (String × FileTree)) :
    List (String × FileTree) :=
  if (es.lookup name).isSome then es.map fun e => if e.1 == name then (name, t) else e
  else es ++ [(name, t)]

/-- Changes what lies at a path, an empty folder if nothing does; makes the folders above it. -/
def modifyAt (f : FileTree → FileTree) (t : FileTree) : List String → FileTree
  | [] => f t
  | n :: ns => .folder (setEntry n (modifyAt f ((t.child? n).getD (.folder [])) ns) t.entries)

def write (t : FileTree) (path : List String) (text : Option String) : FileTree :=
  t.modifyAt (fun _ => .file text) path

def makeFolder (t : FileTree) (path : List String) : FileTree := t.modifyAt id path

/-- Removes a file or a whole folder. -/
def remove (t : FileTree) (path : List String) : FileTree :=
  match path.getLast? with
  | none => .folder []
  | some name =>
    t.modifyAt (fun t => .folder (t.entries.filter (·.1 != name))) path.dropLast

/-- A node of a tree with the folders above it and the names that lead to it, innermost first. -/
structure Place where
  node : FileTree
  above : List FileTree
  names : List String
  deriving Inhabited

namespace Place

def top (t : FileTree) : Place := ⟨t, [], []⟩

/-- The place itself at the top. -/
def parent (p : Place) : Place :=
  match p.above, p.names with
  | t :: ts, _ :: ns => ⟨t, ts, ns⟩
  | _, _ => p

def enter (p : Place) (name : String) (t : FileTree) : Place :=
  ⟨t, p.node :: p.above, name :: p.names⟩

def child? (p : Place) (name : String) : Option Place := (p.node.child? name).map (p.enter name)

def children (p : Place) : List Place := p.node.entries.map fun e => p.enter e.1 e.2

/-- Takes one piece of a written path. Only folders can be walked through. -/
def walk? (p : Place) (piece : List Char) : Option Place :=
  if !p.node.isFolder then none
  else if !FilePath.takesStep piece then some p
  else if piece = ['.', '.'] then some p.parent
  else p.child? (.ofList piece)

/-- The absolute path of a place. -/
def path (p : Place) : String := "/" ++ "/".intercalate p.names.reverse

end Place

/-- What a written path leads to; a relative one starts in the working directory `cwd`. -/
def find? (t : FileTree) (cwd path : String) : Option Place :=
  if path.isEmpty then none
  else ((FilePath.pieces (FilePath.join cwd path)).foldlM Place.walk? (Place.top t))

/-- A place found below another, with the segments of the path to it as the search wrote them. -/
structure Found where
  place : Place
  trail : List (List Char)
  deriving Inhabited

mutual
/-- All that lies below a node, at any depth. -/
def foundBelow (p : Place) (trail : List (List Char)) : FileTree → List Found
  | .file _ => []
  | .folder es => foundAmong p trail es

def foundAmong (p : Place) (trail : List (List Char)) : List (String × FileTree) → List Found
  | [] => []
  | (name, t) :: es =>
    let q := p.enter name t
    let here := trail ++ [name.toList]
    ⟨q, here⟩ :: foundBelow q here t ++ foundAmong p trail es
end

namespace Found

def descendants (f : Found) : List Found := foundBelow f.place f.trail f.place.node

def name (f : Found) : List Char := f.trail.getLast?.getD []

def move (f : Found) (piece : List Char) (p : Place) : Found := ⟨p, f.trail ++ [piece]⟩

/-- What a segment without wildcards leads to. -/
def literal (f : Found) (piece : List Char) : List Found :=
  ((f.place.walk? piece).map (f.move piece)).toList

/-- What a segment leads to. One that starts with a dot may also name the folder and its parent. -/
def named (f : Found) (atoms : List Glob.Atom) : List Found :=
  match Glob.literal? atoms with
  | some piece => f.literal piece
  | none =>
    if f.place.node.isFolder then
      let dots := if atoms.head? = some (.literal '.') then [['.'], ['.', '.']] else []
      (f.place.children.filter fun p => Glob.matchesName atoms ((p.names.headD "").toList)).map
          (fun p => f.move (p.names.headD "").toList p)
        ++ (dots.filter (Glob.matchesName atoms)).flatMap f.literal
    else []

/-- What the segments of a pattern lead to, once for each way to get there. -/
def select : List Glob.Step → Found → List Found
  | [], f => [f]
  | [.anywhere], f => f.descendants.filter (·.place.node.isFolder)
  | .anywhere :: .anywhere :: _, _ => []
  | .anywhere :: .name atoms :: steps, f =>
    (f.descendants.filter (Glob.matchesName atoms ·.name)).flatMap (select steps)
  | .name atoms :: steps, f => (f.named atoms).flatMap (select steps)

end Found

end FileTree

end HelpAudit
