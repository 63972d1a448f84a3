/-!
Tables of contents. Nodes are numbered in the order they are added and name their children by
number, so a table can hold cycles, shared nodes and nodes that no root leads to.
-/
namespace HelpAudit

structure Contents.Node where
  topic : String
  file : String
  caption : Option String
  children : List Nat
  deriving DecidableEq, Inhabited

structure Contents where
  nodes : Array Contents.Node
  roots : List Nat
  deriving DecidableEq, Inhabited

namespace Contents

def empty : Contents := ⟨#[], []⟩

def isEmpty (c : Contents) : Bool := c.nodes.isEmpty

def Node.addChild (n : Node) (child : Nat) : Node := { n with children := n.children ++ [child] }

/-- Adds a node below `parent`, which may be the node itself. Without a parent in the table it
becomes a root. -/
def push (c : Contents) (parent : Option Nat) (node : Node) : Contents :=
  let id := c.nodes.size
  let nodes := c.nodes.push node
  match parent with
  | some p =>
    if p < nodes.size then ⟨nodes.modify p (·.addChild id), c.roots⟩
    else ⟨nodes, c.roots ++ [id]⟩
  | none => ⟨nodes, c.roots ++ [id]⟩

/-- Makes one node of the table a child of another, once more if it is one already. -/
def link (c : Contents) (parent child : Nat) : Contents :=
  if child < c.nodes.size then { c with nodes := c.nodes.modify parent (·.addChild child) } else c

/-- Visits the nodes on the stack and those they lead to, each once. `fuel` bounds the visits that
are left: the stack and the children of the nodes not yet visited. -/
def visit (c : Contents) : (fuel : Nat) → (visited stack : List Nat) → List Nat
  | 0, visited, _ => visited
  | _ + 1, visited, [] => visited
  | fuel + 1, visited, id :: stack =>
    match c.nodes[id]? with
    | none => visit c fuel visited stack
    | some node =>
      if visited.contains id then visit c fuel visited stack
      else visit c fuel (id :: visited) (node.children ++ stack)

def edgeCount (c : Contents) : Nat := (c.nodes.toList.flatMap (·.children)).length

/-- The numbers of the nodes that the roots lead to. -/
def reached (c : Contents) : List Nat := c.visit (c.roots.length + c.edgeCount) [] c.roots

/-- The files of the nodes that the roots lead to. -/
def reachedFiles (c : Contents) : List String :=
  c.reached.filterMap fun id => c.nodes[id]?.map (·.file)

/-- `Reaches c id`: a path of children leads from a root to the node. -/
inductive Reaches (c : Contents) : Nat → Prop where
  | root {id : Nat} : id ∈ c.roots → id < c.nodes.size → Reaches c id
  | child {id child : Nat} {node : Node} : Reaches c id → c.nodes[id]? = some node →
      child ∈ node.children → child < c.nodes.size → Reaches c child

end Contents

end HelpAudit
