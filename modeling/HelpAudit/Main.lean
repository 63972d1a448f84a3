import HelpAudit.CommandLine.Run

/-! The program: it copies the part of the disk that a request is about into a tree, and prints what
the run on that tree yields. -/
namespace HelpAudit.Main

/-- The names in a folder; none for what is no folder. -/
def names? (path : String) : IO (Option (List String)) := do
  try
    return some ((← ((← IO.currentDir) / path).readDir).toList.map (·.fileName))
  catch _ => return none

def text? (path : String) : IO (Option String) := do
  try
    return String.fromUTF8? (← IO.FS.readBinFile path)
  catch _ => return none

partial def readTree (path : String) : IO FileTree := do
  match ← names? path with
  | none => return .file (← text? path)
  | some names =>
    return .folder (← names.mapM fun n => do return (n, ← readTree (path ++ "/" ++ n)))

def absolute (names : List String) : String := "/" ++ "/".intercalate names

/-- Copies what a path leads to and the folders on the way; a folder without what is in it, unless
`isDeep`. -/
def copy (cwd path : String) (isDeep : Bool) (t : FileTree) : IO FileTree := do
  let mut t := t
  let mut here : List String := []
  if path.isEmpty then return t
  for piece in FilePath.pieces (FilePath.join cwd path) do
    if FilePath.takesStep piece then
      if piece = ['.', '.'] then here := here.dropLast
      else
        let name := String.ofList piece
        let some names ← names? (absolute here) | return t
        if !names.contains name then return t
        here := here ++ [name]
        t ← match ← names? (absolute here) with
          | some _ => pure (t.makeFolder here)
          | none => do pure (t.write here (← text? (absolute here)))
  if isDeep then
    let below ← readTree (absolute here)
    return t.modifyAt (fun _ => below) here
  else return t

/-- What a lint or a listing looks at: the places of settings files, the packages directory and the
path to lint. -/
def snapshot (cwd : String) (o : Overrides) (path : String) : IO FileTree := do
  let mut t ← copy cwd "." false (.folder [])
  for folder in FilePath.upward (o.repoRoot.getD ".") do
    for marker in rootMarkers do
      t ← copy cwd (FilePath.join folder marker) false t
  let setup := (Setup.resolve t cwd o).value
  t ← copy cwd setup.packagesRoot true t
  copy cwd path false t

def snapshotFor (cwd : String) : Except UsageStop Request → IO FileTree
  | .ok (.lint path o _) => snapshot cwd o path
  | .ok (.packages o _) => snapshot cwd o ""
  | _ => return .folder []

def run (args : List String) : IO UInt32 := do
  let cwd := toString (← IO.currentDir)
  let tree ← snapshotFor cwd (Arguments.read args)
  let coloured := (← IO.getEnv "NO_COLOR").isNone
  let colours : Colours :=
    ⟨coloured && (← (← IO.getStdout).isTty), coloured && (← (← IO.getStderr).isTty)⟩
  let outcome := runCommandLine tree cwd colours args
  for e in outcome.events do
    IO.eprintln e.line
  IO.eprint outcome.value.err
  IO.print outcome.value.out
  return outcome.value.exit.toUInt32

end HelpAudit.Main

def main (args : List String) : IO UInt32 := HelpAudit.Main.run args
