/-! Lines of a text: each ends after a line feed, which may have one carriage return before it. -/
namespace HelpAudit.Text

/-- A line without the carriage return before its line feed. -/
def dropReturn (line : List Char) : List Char :=
  if line.getLast? = some '\r' then line.dropLast else line

/-- The pieces between line feeds, the last of which has no line feed after it. -/
def pieces (text : List Char) : List (List Char) := text.splitOnP (· == '\n')

/-- The lines of a text. A last piece that is empty is no line, and its carriage return stays. -/
def lines (text : List Char) : List (List Char) :=
  let ps := pieces text
  ps.dropLast.map dropReturn ++ (ps.getLast?.filter (!·.isEmpty)).toList

/-- The first line, empty for an empty text. -/
def firstLine (text : List Char) : List Char :=
  let line := text.takeWhile (· != '\n')
  if line.length < text.length then dropReturn line else line

/-- The number of bytes that the characters take in UTF-8. -/
def byteLength (cs : List Char) : Nat := cs.foldr (fun c n => c.utf8Size + n) 0

@[simp] theorem byteLength_nil : byteLength [] = 0 := rfl

@[simp] theorem byteLength_cons (c : Char) (cs : List Char) :
    byteLength (c :: cs) = c.utf8Size + byteLength cs := rfl

@[simp] theorem byteLength_append (a b : List Char) :
    byteLength (a ++ b) = byteLength a + byteLength b := by
  induction a with
  | nil => simp
  | cons c a ih => rw [List.cons_append, byteLength_cons, byteLength_cons, ih, Nat.add_assoc]

theorem length_dropWhile_le (p : Char → Bool) (cs : List Char) :
    (cs.dropWhile p).length ≤ cs.length := (List.dropWhile_suffix p).length_le

end HelpAudit.Text
