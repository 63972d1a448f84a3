import HelpAudit.Rule.Context

/-! Every declared file can be reached from the roots of the table of contents. -/
namespace HelpAudit.ContentsCoverage

def ruleName : String := "toc"

def message (file : String) : String :=
  "Help file '" ++ file ++ "' is not represented in the table of contents"

def check (cx : Context) : List Diagnostic :=
  let reached := cx.index.contents.reachedFiles
  (cx.index.files.filter (!reached.contains ·.path)).map
    fun f => cx.indexIssue .warning ruleName (message f.path)

end HelpAudit.ContentsCoverage
