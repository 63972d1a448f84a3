import HelpAudit.Settings.Setup

/-!
What the arguments of a call ask for. An option takes the argument after it as its value, or what
follows an equals sign. Each option may be given once; after `--` there are no options.
-/
namespace HelpAudit

inductive Request where
  | commandVersion
  | programVersion
  | lint (path : String) (overrides : Overrides) (isVerbose : Bool)
  | packages (overrides : Overrides) (isVerbose : Bool)

/-- Why a call is not carried out. -/
inductive UsageStop where
  | help
  | noCommand
  | unknownCommand
  | unexpectedArgument
  | unexpectedValue
  | missingArgument
  | missingValue
  | repeated
  deriving DecidableEq

/-- Asking for help is no error, and a call without a command has no message. -/
def UsageStop.message? : UsageStop → Option String
  | .help | .noCommand => none
  | .unknownCommand => some "unrecognized subcommand"
  | .unexpectedArgument => some "unexpected argument found"
  | .unexpectedValue => some "unexpected value for an argument found"
  | .missingArgument => some "one or more required arguments were not provided"
  | .missingValue => some "one of the values isn't valid for an argument"
  | .repeated =>
    some "an argument cannot be used with one or more of the other specified arguments"

namespace Arguments

/-- An argument as it is written. -/
inductive Form where
  | separator
  | long (name : List Char) (value : Option (List Char))
  | short (letters : List Char)
  | plain

def formOf (argument : String) : Form :=
  match argument.toList with
  | ['-', '-'] => .separator
  | '-' :: '-' :: cs =>
    .long (cs.takeWhile (· != '=')) (cs.dropWhile (· != '=')).tail?
  | '-' :: c :: cs => .short (c :: cs)
  | _ => .plain

inductive OptionName where
  | repoRoot
  | packagesRoot
  | output
  deriving DecidableEq

inductive Flag where
  | help
  | verbose
  | option (name : OptionName)

/-- What a command takes besides a request for help. -/
structure Shape where
  hasOptions : Bool
  hasPath : Bool

def Shape.long? (s : Shape) (name : List Char) : Option Flag :=
  if name = "help".toList then some .help
  else if !s.hasOptions then none
  else if name = "verbose".toList then some .verbose
  else if name = "repo-root".toList then some (.option .repoRoot)
  else if name = "packages-root".toList then some (.option .packagesRoot)
  else if name = "output".toList then some (.option .output)
  else none

def Shape.short? (s : Shape) : Char → Option Flag
  | 'h' => some .help
  | 'v' => if s.hasOptions then some .verbose else none
  | _ => none

/-- What was read of a command's arguments. The last option is open until the next argument but its
value was read: it may lack the value, and may turn out to be given twice. -/
structure Given where
  path : Option String
  options : List (OptionName × String)
  isVerbose : Bool
  last : Option (OptionName × Option String)

namespace Given

def start : Given := ⟨none, [], false, none⟩

/-- Takes the last option in. -/
def settle (g : Given) : Except UsageStop Given :=
  match g.last with
  | none => .ok g
  | some (_, none) => .error .missingValue
  | some (o, some v) =>
    if (g.options.lookup o).isSome then .error .repeated
    else .ok { g with options := g.options ++ [(o, v)], last := none }

/-- A flag, with the value that is written to it. -/
def flag (g : Given) (f : Flag) (value : Option String) : Except UsageStop Given :=
  match f, value with
  | .option o, some v => do
    let g ← g.settle
    { g with last := some (o, some v) }.settle
  | .option o, none => do
    let g ← g.settle
    return { g with last := some (o, none) }
  | _, some _ => .error .unexpectedValue
  | .help, none => do
    let _ ← g.settle
    .error .help
  | .verbose, none => do
    let g ← g.settle
    if g.isVerbose then .error .repeated else return { g with isVerbose := true }

def letters (s : Shape) : Given → List Char → Except UsageStop Given
  | g, [] => .ok g
  | g, c :: cs =>
    match s.short? c with
    | none => .error .unexpectedArgument
    | some f => do letters s (← g.flag f none) cs

/-- An argument that is no option: the path, if one is awaited. -/
def operand (s : Shape) (g : Given) (argument : String) : Except UsageStop Given :=
  if s.hasPath && g.path.isNone then do
    let g ← g.settle
    return { g with path := some argument }
  else .error .unexpectedArgument

/-- An argument before the separator. -/
def plain (s : Shape) (g : Given) (argument : String) : Except UsageStop Given :=
  match g.last with
  | some (o, none) => .ok { g with last := some (o, some argument) }
  | _ => g.operand s argument

def read (s : Shape) : Given → List String → Except UsageStop Given
  | g, [] => g.settle
  | g, a :: as =>
    match formOf a with
    | .separator => do (← as.foldlM (operand s) g).settle
    | .long name value =>
      match s.long? name with
      | none => .error .unexpectedArgument
      | some f => do read s (← g.flag f (value.map .ofList)) as
    | .short cs => do read s (← g.letters s cs) as
    | .plain => do read s (← g.plain s a) as

def overrides (g : Given) : Overrides where
  repoRoot := g.options.lookup .repoRoot
  packagesRoot := g.options.lookup .packagesRoot
  output := g.options.lookup .output

end Given

def lint (as : List String) : Except UsageStop Request := do
  let g ← Given.start.read ⟨true, true⟩ as
  match g.path with
  | some path => return .lint path g.overrides g.isVerbose
  | none => .error .missingArgument

def packages (as : List String) : Except UsageStop Request := do
  let g ← Given.start.read ⟨true, false⟩ as
  return .packages g.overrides g.isVerbose

def version (as : List String) : Except UsageStop Request := do
  let _ ← Given.start.read ⟨false, false⟩ as
  return .commandVersion

def commands : List (String × (List String → Except UsageStop Request)) :=
  [("version", version), ("lint", lint), ("packages", packages)]

def isCommand (name : String) : Bool := name == "help" || (commands.lookup name).isSome

/-- Help is asked for on one command or on none. -/
def help : List String → UsageStop
  | [] => .help
  | [name] => if isCommand name then .help else .unknownCommand
  | _ => .unknownCommand

/-- The first argument, where it names no command. -/
def stopAt (argument : String) (rest : List String) : Except UsageStop Request :=
  match formOf argument with
  | .separator =>
    match rest with
    | [] => .error .noCommand
    | a :: _ => .error (if isCommand a then .unexpectedArgument else .unknownCommand)
  | .long name value =>
    if name ≠ "help".toList ∧ name ≠ "version".toList then .error .unexpectedArgument
    else if value.isSome then .error .unexpectedValue
    else if name = "help".toList then .error .help
    else .ok .programVersion
  | .short ('h' :: _) => .error .help
  | .short ('V' :: _) => .ok .programVersion
  | .short _ => .error .unexpectedArgument
  | .plain => .error .unknownCommand

def read : List String → Except UsageStop Request
  | [] => .error .noCommand
  | a :: as =>
    if a = "help" then .error (help as)
    else
      match commands.lookup a with
      | some command => command as
      | none => stopAt a as

end Arguments

end HelpAudit
