import HelpAudit.Event

/-! Where the texts of help resources come from. -/
namespace HelpAudit

/-- `list` gives the resources below a folder whose name matches a glob, in ascending order. -/
structure Source where
  content : String → Option String
  holds : String → Bool
  list : (folder glob : String) → Logged (List String)

/-- Ascending order of the UTF-8 bytes. -/
def sortNames (names : List String) : List String := names.mergeSort fun a b => !decide (b < a)

/-- Prefers `front` and falls back to `back`. -/
def Source.layered (front back : Source) : Source where
  content r := (front.content r).or (back.content r)
  holds r := front.holds r || back.holds r
  list folder glob := do
    let upper ← front.list folder glob
    let lower ← back.list folder glob
    return (sortNames (upper ++ lower)).eraseReps

end HelpAudit
