import HelpAudit.Index.Error

/-! What a run notes in its log besides its result. -/
namespace HelpAudit

inductive Event where
  | topicRedeclared (package topic keptFile ignoredFile : String)
  | unknownContentsTopic (package topic : String)
  | indexSkipped (cause : Index.LoadError)
  | indexRepeated (package kept ignored : String)
  | contentUnavailable (file package : String)
  | badGlob (pattern : String)
  | invalidSettings (path : String)

namespace Event

def message : Event → String
  | .topicRedeclared .. => "topic declared more than once; keeping the first declaration"
  | .unknownContentsTopic .. =>
    "table of contents references an unknown topic; promoting its children"
  | .indexSkipped _ => "skipping help index"
  | .indexRepeated .. => "package has more than one help index"
  | .contentUnavailable .. => "unable to lint file; content not available"
  | .badGlob _ => "bad resource glob"
  | .invalidSettings _ => "ignoring invalid config"

/-- The names that a message is about, each with its role. -/
def details : Event → List (String × String)
  | .topicRedeclared package topic keptFile ignoredFile =>
    [("package", package), ("topic", topic), ("first", keptFile), ("duplicate", ignoredFile)]
  | .unknownContentsTopic package topic => [("package", package), ("topic", topic)]
  | .indexRepeated package kept ignored =>
    [("package", package), ("kept", kept), ("ignored", ignored)]
  | .contentUnavailable file package => [("file", file), ("package", package)]
  | .indexSkipped _ | .badGlob _ | .invalidSettings _ => []

/-- A line of a log. -/
def line (e : Event) : String :=
  "WARN " ++ e.message ++ String.join (e.details.map fun d => " " ++ d.1 ++ "=" ++ d.2)

end Event

/-- A value with the events noted while it was made. -/
structure Logged (α : Type) where
  value : α
  events : List Event

namespace Logged

variable {α β : Type}

def pure (a : α) : Logged α := ⟨a, []⟩
def note (e : Event) : Logged Unit := ⟨(), [e]⟩

def bind (x : Logged α) (f : α → Logged β) : Logged β :=
  ⟨(f x.value).value, x.events ++ (f x.value).events⟩

instance : Monad Logged where
  pure := Logged.pure
  bind := Logged.bind

@[simp] theorem pure_value (a : α) : (Pure.pure a : Logged α).value = a := rfl
@[simp] theorem pure_events (a : α) : (Pure.pure a : Logged α).events = [] := rfl

@[simp] theorem bind_value (x : Logged α) (f : α → Logged β) :
    (x >>= f).value = (f x.value).value := rfl

@[simp] theorem bind_events (x : Logged α) (f : α → Logged β) :
    (x >>= f).events = x.events ++ (f x.value).events := rfl

instance : LawfulMonad Logged :=
  .mk' _ (fun x => by cases x; simp [Functor.map, Logged.bind, Logged.pure])
    (fun a f => by simp [Pure.pure, Bind.bind, Logged.bind, Logged.pure])
    (fun x f g => by simp [Bind.bind, Logged.bind, List.append_assoc])

end Logged

end HelpAudit
