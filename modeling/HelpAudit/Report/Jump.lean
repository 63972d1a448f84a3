import HelpAudit.Text.Blank
import HelpAudit.Text.Digit
import HelpAudit.Text.Line

/-! Places read back from a report, as an editor does that jumps to them. -/
namespace HelpAudit

open Text

structure Jump where
  file : String
  line : Nat
  column : Nat
  message : String
  deriving DecidableEq

namespace Jump

/-- The file of a line `file:`; the name has no colon. -/
def file? (line : List Char) : Option (List Char) :=
  match line.dropWhile (· != ':') with
  | [_] => if line.length = 1 then none else some line.dropLast
  | _ => none

/-- A run of digits, one at least, and the text after it. -/
def digits? (cs : List Char) : Option (List Char × List Char) :=
  if (cs.takeWhile isDecimal).isEmpty then none
  else some (cs.takeWhile isDecimal, cs.dropWhile isDecimal)

/-- The digits of line and column, and the message, of a place written at the head of a text. -/
def place? (cs : List Char) : Option (List Char × List Char × List Char) := do
  let (line, cs) ← digits? cs
  match cs with
  | ':' :: cs =>
    let (column, cs) ← digits? cs
    match cs with
    | c :: _ => if isBlank c then some (line, column, cs.dropWhile isBlank) else none
    | [] => none
  | _ => none

/-- The first place in a line that follows an `@` and a blank. -/
def issue? : List Char → Option (List Char × List Char × List Char)
  | '@' :: ' ' :: cs => (place? cs).or (issue? (' ' :: cs))
  | _ :: cs => issue? cs
  | [] => none

/-- A number that fits 64 bits, written in digits 0-9. -/
def number? (ds : List Char) : Option Nat :=
  match natural? ds with
  | some n => if n < Nat.pow 2 64 then some n else none
  | none => none

/-- Walks the lines below the present file. Lines before the first file name no place, nor do those
whose numbers cannot be read. -/
def scan : (file : Option (List Char)) → List (List Char) → List Jump
  | _, [] => []
  | file, line :: rest =>
    match file? line with
    | some f => scan (some f) rest
    | none =>
      let here : Option Jump := do
        let f ← file
        let (l, c, message) ← issue? line
        return ⟨.ofList f, ← number? l, ← number? c, .ofList message⟩
      here.toList ++ scan file rest

def ofReport (report : String) : List Jump := scan none (lines report.toList)

end Jump

end HelpAudit
