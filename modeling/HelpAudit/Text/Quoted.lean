import HelpAudit.Text.Formless

/-! Texts between double quotes, as messages show them. -/
namespace HelpAudit.Text

def hexDigits (n : Nat) : List Char := Nat.toDigits 16 n

/-- A quote, a backslash and what has no form of its own are escaped. -/
def quoteChar (c : Char) : List Char :=
  if c = '"' then ['\\', '"']
  else if c = '\\' then ['\\', '\\']
  else if c = '\n' then ['\\', 'n']
  else if c = '\r' then ['\\', 'r']
  else if c = '\t' then ['\\', 't']
  else if c.toNat = 0 then ['\\', '0']
  else if isFormless c then '\\' :: 'u' :: '\x7b' :: hexDigits c.toNat ++ ['\x7d']
  else [c]

def quote (s : String) : String := .ofList ('"' :: s.toList.flatMap quoteChar ++ ['"'])

end HelpAudit.Text
