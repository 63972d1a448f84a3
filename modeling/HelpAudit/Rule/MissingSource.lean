import HelpAudit.Rule.Context

/-! The files that an index declares are the help files below its documentation folder. -/
namespace HelpAudit.MissingSource

def ruleName : String := "missing-source"

def helpFileGlob : String := "*.txt"

def unlistedMessage (file docRoot : String) : String :=
  "Help file '" ++ file ++ "' is in " ++ docRoot ++ "/ but missing from the index"

def absentMessage (file docRoot : String) : String :=
  "Help file '" ++ file ++ "' is in the index but not in " ++ docRoot ++ "/"

/-- How a resource is written after the documentation folder and a slash. -/
def stripRoot? (docRoot path : String) : Option String :=
  ((docRoot.toList ++ ['/']).isPrefixOf? path.toList).map .ofList

/-- The help files of the source, each once, in ascending order. -/
def onDisk (cx : Context) : List String :=
  let listed := (cx.source.list cx.index.docRoot helpFileGlob).value
  (NameMap.ofList ((listed.filterMap (stripRoot? cx.index.docRoot)).map (·, ()))).names

def check (cx : Context) : List Diagnostic :=
  let there := onDisk cx
  let ix := cx.index
  (there.filter (!ix.hasFile ·)).map
      (fun f => cx.indexIssue .warning ruleName (unlistedMessage f ix.docRoot))
    ++ (ix.files.filter (!there.contains ·.path)).map
      fun f => cx.indexIssue .error ruleName (absentMessage f.path ix.docRoot)

end HelpAudit.MissingSource
