import HelpAudit.Rule.Context

/-! Every declared file is linked to from another file of the package, except the first page. -/
namespace HelpAudit.Orphan

def ruleName : String := "orphan"

/-- The help file through which a package is entered. -/
def rootFile : String := "index.txt"

def message (file : String) : String :=
  "Help file '" ++ file ++ "' is not linked to from any other file in this package"

/-- The file of the package that a link leads to from another file. -/
def linkedFile? (cx : Context) (file body : String) : Option String := do
  let link := Markup.LinkBody.parse body
  let topic ← link.topic
  match cx.resolve link.package with
  | .own | .file _ =>
    let t ← cx.index.lookup topic
    if t.file = file then none else some t.file
  | .foreign _ | .unknown _ => none

def linkedFiles (cx : Context) (d : Document) : List String :=
  d.links.filterMap fun s => linkedFile? cx d.file s.body

def check (cx : Context) (linked : List String) : List Diagnostic :=
  (cx.index.files.filter (!linked.contains ·.path)).map
    fun f => cx.indexIssue .warning ruleName (message f.path)

end HelpAudit.Orphan
