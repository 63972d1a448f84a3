import HelpAudit.Toml.Atom
import HelpAudit.Toml.Node

/-! Values of TOML text, and documents: lines that set keys of the present table or open another. -/
namespace HelpAudit.Toml

mutual
def value? : (fuel : Nat) → Reader Node
  | 0, _ => none
  | fuel + 1, cs =>
    match cs with
    | '"' :: rest => (string? '"' rest).map fun (s, after) => (.text (.ofList s), after)
    | '\'' :: rest => (string? '\'' rest).map fun (s, after) => (.text (.ofList s), after)
    | '[' :: rest => (items? fuel rest).map fun after => (.closed, after)
    | '\x7b' :: rest => (inlineMembers? fuel [] rest).map fun after => (.closed, after)
    | _ => (atom? cs).map fun after => (.closed, after)

/-- The items of an array up to its closing bracket; a comma may stand after the last. -/
def items? : (fuel : Nat) → List Char → Option (List Char)
  | 0, _ => none
  | fuel + 1, cs => do
    match ← filler? (cs.length + 1) cs with
    | ']' :: after => some after
    | rest =>
      let (_, rest) ← value? fuel rest
      match ← filler? (rest.length + 1) rest with
      | ',' :: more => items? fuel more
      | ']' :: after => some after
      | _ => none

/-- The members of an inline table up to its closing brace. -/
def inlineMembers? : (fuel : Nat) → Members → List Char → Option (List Char)
  | 0, _, _ => none
  | fuel + 1, ms, cs => do
    match ← filler? (cs.length + 1) cs with
    | '\x7d' :: after => some after
    | rest =>
      let (keys, rest) ← key? (rest.length + 1) rest
      match rest with
      | '=' :: rest =>
        let (n, rest) ← value? fuel (skipBlank rest)
        let ms ← assign ms keys.dropLast (keys.getLast?.getD "") n
        match ← filler? (rest.length + 1) rest with
        | ',' :: more => inlineMembers? fuel ms more
        | '\x7d' :: after => some after
        | _ => none
      | _ => none
end

/-- What was read so far, and the path of the table whose keys follow. -/
structure State where
  root : Members
  current : List String

/-- A table that is there already. -/
def inside (path : List String) (change : Members → Option Members) (root : Members) :
    Option Members := descend false (fun _ ms => change ms) false root path

def header? (st : State) (keys : List String) (opens : Members → List String → String →
    Option Members) : Option State := do
  let root ← opens st.root keys.dropLast (keys.getLast?.getD "")
  return ⟨root, keys⟩

/-- One line, or the lines that a value takes. -/
def statement? (st : State) (cs : List Char) : Option (State × List Char) :=
  match skipBlank cs with
  | '[' :: '[' :: rest => do
    let (keys, rest) ← key? (rest.length + 1) rest
    match rest with
    | ']' :: ']' :: after => return (← header? st keys openItem, ← lineEnd? after)
    | _ => none
  | '[' :: rest => do
    let (keys, rest) ← key? (rest.length + 1) rest
    match rest with
    | ']' :: after => return (← header? st keys openTable, ← lineEnd? after)
    | _ => none
  | rest =>
    match lineEnd? rest with
    | some after => some (st, after)
    | none => do
      let (keys, rest) ← key? (rest.length + 1) rest
      match rest with
      | '=' :: rest =>
        let (n, rest) ← value? (2 * rest.length + 2) (skipBlank rest)
        let root ← inside st.current
          (fun ms => assign ms keys.dropLast (keys.getLast?.getD "") n) st.root
        return (⟨root, st.current⟩, ← lineEnd? rest)
      | _ => none

def statements? : (fuel : Nat) → State → List Char → Option State
  | _, st, [] => some st
  | 0, _, _ => none
  | fuel + 1, st, cs => do
    let (st, rest) ← statement? st cs
    statements? fuel st rest

/-- A byte order mark may stand before the document. -/
def dropMark : List Char → List Char
  | '\ufeff' :: cs => cs
  | cs => cs

def parse? (text : String) : Option Members :=
  let cs := dropMark text.toList
  (statements? (cs.length + 1) ⟨[], []⟩ cs).map (·.root)

end HelpAudit.Toml
