import HelpAudit.Toml.Document
import HelpAudit.Yaml.Node

/-! Settings as a file gives them, in TOML or in YAML. Keys that name no setting are passed over. -/
namespace HelpAudit

/-- The packages directory, the output mode and the file name of indexes, each if it is given. -/
structure Settings where
  packagesRoot : Option String
  output : Option String
  indexName : Option String
  deriving DecidableEq

namespace Settings

def empty : Settings := ⟨none, none, none⟩

/-! A value is read as an optional text: no result for what is no text, and `some none` for null. -/

def tomlText? : Option Toml.Node → Option (Option String)
  | none => some none
  | some (.text s) => some (some s)
  | some _ => none

def ofToml? (ms : Toml.Members) : Option Settings := do
  return {
    packagesRoot := ← tomlText? (ms.lookup "packages_root")
    output := ← tomlText? (ms.lookup "output")
    indexName := ← tomlText? (ms.lookup "index_name") }

def isNull (text : String) : Bool := ["null", "Null", "NULL", "~"].contains text

def nullTag : String := "tag:yaml.org,2002:null"

/-- A scalar that is not plain is always a text, and so is one with a tag other than `nullTag`. -/
def scalarText? (tag : Option String) (isPlain : Bool) (text : String) : Option (Option String) :=
  if !isPlain then some (some text)
  else match tag with
    | none => some (if text.isEmpty || isNull text then none else some text)
    | some t => if t ≠ nullTag then some (some text) else if isNull text then some none else none

def yamlText? (root : Yaml.Node) (n : Yaml.Node) : Option (Option String) :=
  match root.target? n with
  | some (.scalar _ tag isPlain text) => scalarText? tag isPlain text
  | _ => none

def yamlKey? (root : Yaml.Node) (n : Yaml.Node) : Option String :=
  match root.target? n with
  | some (.scalar _ _ _ text) => some text
  | _ => none

/-- What the members of a mapping say about one key, which may be there once only. -/
def yamlMember? (root : Yaml.Node) (keys : List String) (values : List Yaml.Node) (key : String) :
    Option (Option String) :=
  match ((keys.zip values).filter (·.1 == key)).map (·.2) with
  | [] => some none
  | [v] => yamlText? root v
  | _ => none

/-- The settings of a mapping by their keys, or of a sequence of all three in order. No document and
an empty one set nothing. -/
def ofYaml? : Option Yaml.Node → Option Settings
  | none => some empty
  | some root =>
    match root with
    | .scalar _ _ true "" => some empty
    | .sequence _ [p, o, i] => do
      return ⟨← yamlText? root p, ← yamlText? root o, ← yamlText? root i⟩
    | .mapping _ ms => do
      let keys ← ms.mapM fun m => yamlKey? root m.1
      let member := yamlMember? root keys (ms.map (·.2))
      return ⟨← member "packages_root", ← member "output", ← member "index_name"⟩
    | _ => none

end Settings

inductive SettingsFormat where
  | toml
  | yaml
  deriving DecidableEq

def SettingsFormat.parse? : SettingsFormat → String → Option Settings
  | .toml, text => (Toml.parse? text).bind Settings.ofToml?
  | .yaml, text => (Yaml.parse? text).bind Settings.ofYaml?

end HelpAudit
