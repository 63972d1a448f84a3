import HelpAudit.FileTree
import HelpAudit.Source.Basic

/-! Texts of the files below a root directory of a tree. -/
namespace HelpAudit.FileTree

/-- Drops slashes of both kinds from the end of a path. -/
def trimSlashes (path : String) : String :=
  .ofList (path.toList.reverse.dropWhile Resource.isSeparator).reverse

def placeOf? (t : FileTree) (root resource : String) : Option Place :=
  t.find? "/" (FilePath.join root (Resource.normalize resource))

/-- The resource that the path `base` followed by `trail` names below the root. -/
def resourceOf? (root base : String) (trail : List (List Char)) : Option String :=
  let path := base ++ "/" ++ FilePath.render trail
  (FilePath.relative? path root).map Resource.normalize

/-- Files below a folder by a path pattern; one that ends in a slash matches folders only. -/
def list (t : FileTree) (root folder glob : String) : Logged (List String) :=
  let base := trimSlashes (FilePath.join root (Resource.normalize folder))
  match Glob.steps? glob with
  | none => ⟨[], [.badGlob (base ++ "/**/" ++ glob)]⟩
  | some steps =>
    if glob.toList.getLast? = some '/' then pure []
    else
      match t.find? "/" (base ++ "/") with
      | none => pure []
      | some p =>
        let files := (Found.select steps ⟨p, []⟩).filter (·.place.node.isFile)
        pure (sortNames (files.filterMap fun f => resourceOf? root base f.trail))

/-- `root` is an absolute path. -/
def source (t : FileTree) (root : String) : Source where
  content r := (t.placeOf? root r).bind (·.node.text?)
  holds r := ((t.placeOf? root r).map (·.node.isFile)).getD false
  list folder glob := t.list root folder glob

end HelpAudit.FileTree
