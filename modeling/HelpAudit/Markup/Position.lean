/-! Lines and columns of byte offsets, both counted from 1. A column counts characters. -/
namespace HelpAudit

structure Position where
  line : Nat
  column : Nat
  deriving DecidableEq

namespace Position

/-- Walks up to `left` bytes on. `chars` and `bytes` count what the present line holds so far. An
offset inside a character counts bytes, and one past the end counts as the end. -/
def advance (line chars bytes left : Nat) : List Char → Position
  | [] => ⟨line, chars + 1⟩
  | c :: cs =>
    if left = 0 then ⟨line, chars + 1⟩
    else if left < c.utf8Size then ⟨line, bytes + left + 1⟩
    else if c = '\n' then advance (line + 1) 0 0 (left - c.utf8Size) cs
    else advance line (chars + 1) (bytes + c.utf8Size) (left - c.utf8Size) cs

def ofOffset (text : String) (offset : Nat) : Position := advance 1 0 0 offset text.toList

end Position

end HelpAudit
