import HelpAudit.Json.Value

/-! Why a help index cannot be loaded. -/
namespace HelpAudit.Index

/-- What a topic entry must hold at some place. -/
inductive Wanted where
  | string
  | sequence
  | topicEntry
  deriving DecidableEq

def Wanted.name : Wanted → String
  | .string => "a string"
  | .sequence => "a sequence"
  | .topicEntry => "struct RawTopic"

/-- Why an item after a file's title is no topic entry. -/
inductive EntryFault where
  | wrongKind (found : Json) (wanted : Wanted)
  | noTopic
  | emptyList
  | longList (length : Nat)

def EntryFault.message : EntryFault → String
  | .wrongKind found wanted => "invalid type: " ++ found.describe ++ ", expected " ++ wanted.name
  | .noTopic => "missing field `topic`"
  | .emptyList => "invalid length 0, expected struct RawTopic with 3 elements"
  | .longList length =>
    "invalid length " ++ toString length ++ ", expected fewer elements in array"

/-- Why a well-formed document is no help index. -/
inductive Fault where
  | blankPackage
  | notArray (file : String)
  | noTitle (file : String)
  | badEntry (file : String) (fault : EntryFault)

def Fault.message : Fault → String
  | .blankPackage => "'package' must not be empty"
  | .notArray file => "help_files entry '" ++ file ++ "' must be an array"
  | .noTitle file => "help_files entry '" ++ file ++ "' must start with a title"
  | .badEntry file fault => "bad topic entry in '" ++ file ++ "': " ++ fault.message

inductive LoadError where
  | unreadable (location : String)
  | notJson (location : String)
  | invalid (location : String) (fault : Fault)
  | unknownPackage (package : String)

def LoadError.message : LoadError → String
  | .unreadable location => "help index '" ++ location ++ "' could not be read"
  | .notJson location => "help index '" ++ location ++ "' is not valid JSON"
  | .invalid location fault => "help index '" ++ location ++ "' is invalid: " ++ fault.message
  | .unknownPackage package => "no help index is loaded for package '" ++ package ++ "'"

end HelpAudit.Index
