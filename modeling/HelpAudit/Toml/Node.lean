/-!
What a TOML document holds, as far as the texts at its top level are concerned: every other value
stands as a closed node. A table may be named by a header or by dotted keys but not by both, and no
key may be set twice.
-/
namespace HelpAudit.Toml

/-- What a key stands for. An implicit table was named on the way to another one; a dotted table was
named by a dotted key. Of an array of tables the last one can still grow. -/
inductive Node where
  | text (value : String)
  | closed
  | table (isImplicit isDotted : Bool) (members : List (String × Node))
  | tables (last : List (String × Node))
  deriving Inhabited

abbrev Members := List (String × Node)

def Members.set (ms : Members) (key : String) (n : Node) : Members :=
  if (ms.lookup key).isSome then ms.map fun m => if m.1 == key then (key, n) else m
  else ms ++ [(key, n)]

/-- Changes the table that a path of keys leads to, making implicit tables on the way. The change
is told whether the table is a dotted one. -/
def descend (byDots : Bool) (change : Bool → Members → Option Members) :
    (isDotted : Bool) → Members → List String → Option Members
  | isDotted, ms, [] => change isDotted ms
  | _, ms, k :: ks =>
    match ms.lookup k with
    | none => (descend byDots change byDots [] ks).map fun c => ms.set k (.table true byDots c)
    | some (.table isImplicit isDotted c) =>
      if byDots && !isImplicit then none
      else (descend byDots change isDotted c ks).map fun c =>
        ms.set k (.table isImplicit isDotted c)
    | some (.tables last) =>
      (descend byDots change false last ks).map fun c => ms.set k (.tables c)
    | some (.text _) | some .closed => none

/-- Sets a key that is not set yet. -/
def setNew (key : String) (n : Node) (ms : Members) : Option Members :=
  if (ms.lookup key).isSome then none else some (ms.set key n)

/-- Sets the value of a dotted key below the present table. -/
def assign (ms : Members) (path : List String) (key : String) (n : Node) : Option Members :=
  descend true (fun isDotted ms => if isDotted == path.isEmpty then none else setNew key n ms)
    false ms path

/-- Names a table by its header. -/
def openTable (ms : Members) (path : List String) (key : String) : Option Members :=
  descend false (fun _ ms =>
    match ms.lookup key with
    | none => some (ms.set key (.table false false []))
    | some (.table true false c) => some (ms.set key (.table false false c))
    | _ => none) false ms path

/-- Adds a table to an array of tables. -/
def openItem (ms : Members) (path : List String) (key : String) : Option Members :=
  descend false (fun _ ms =>
    match ms.lookup key with
    | none | some (.tables _) => some (ms.set key (.tables []))
    | _ => none) false ms path

end HelpAudit.Toml
