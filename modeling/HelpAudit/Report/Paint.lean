import HelpAudit.Diagnostic

/-! Colours of a terminal, as escape sequences around a text. -/
namespace HelpAudit

inductive Colour where
  | red
  | yellow
  | blue
  | cyan
  deriving DecidableEq

def Colour.code : Colour → String
  | .red => "31"
  | .yellow => "33"
  | .blue => "34"
  | .cyan => "36"

def escape (code : String) : String := "\x1b[" ++ code ++ "m"

def bold (text : String) : String := escape "1" ++ text ++ escape "0"

def Colour.paint (c : Colour) (text : String) : String := escape c.code ++ text ++ escape "39"

def Severity.colour : Severity → Colour
  | .error => .red
  | .warning => .yellow
  | .info => .blue

end HelpAudit
