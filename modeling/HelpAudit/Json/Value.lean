import HelpAudit.Json.Number
import HelpAudit.Text.Quoted

/-!
JSON values. An object keeps its members as they are written; where a name must stand for one
value, a repeated name keeps its first place and takes its last value.
-/
namespace HelpAudit

inductive Json where
  | null
  | bool (value : Bool)
  | number (value : Json.Number)
  | string (value : String)
  | array (items : List Json)
  | object (members : List (String × Json))
  deriving Inhabited

namespace Json

def ofNat (n : Nat) : Json := .number (.natural n)

/-- Puts a value at the place of its name, or else at the end. -/
def putMember (members : List (String × Json)) (name : String) (value : Json) :
    List (String × Json) :=
  if members.any (·.1 == name) then
    members.map fun m => if m.1 == name then (name, value) else m
  else members ++ [(name, value)]

/-- Each name once, at its first place, with its last value. -/
def distinct (members : List (String × Json)) : List (String × Json) :=
  members.foldl (fun ms m => putMember ms m.1 m.2) []

def string? : Json → Option String
  | .string s => some s
  | _ => none

def array? : Json → Option (List Json)
  | .array items => some items
  | _ => none

/-- How messages name a value that stands where another kind is wanted. -/
def describe : Json → String
  | .null => "null"
  | .bool b => "boolean `" ++ toString b ++ "`"
  | .number (.natural n) => "integer `" ++ toString n ++ "`"
  | .number (.negative n) => "integer `-" ++ toString n ++ "`"
  | .number (.float isNegative size) =>
    "floating point `" ++ (if isNegative then "-" else "") ++ size.text ++ "`"
  | .string s => "string " ++ Text.quote s
  | .array _ => "sequence"
  | .object _ => "map"

end Json

end HelpAudit
