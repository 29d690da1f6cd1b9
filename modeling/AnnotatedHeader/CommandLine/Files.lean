/-! Files: what a run asks of the files around it, in any monad that can answer. -/
namespace AnnotatedHeader

inductive FileKind where
  | regular
  | directory
  | other
  deriving DecidableEq, Repr

class Files (m : Type → Type) where
  /-- What is there at a path, if anything is. -/
  kind? : String → m (Option FileKind)
  /-- The names in a directory; none if it cannot be read. -/
  entries? : String → m (Option (List String))
  /-- The text of a file; none if it cannot be read or is no text. -/
  read? : String → m (Option String)
  /-- Makes a file of this text, and says whether it could. -/
  write : String → String → m Bool

/-- What can lift an answer can ask. -/
instance {m n : Type → Type} [MonadLift m n] [Files m] : Files n where
  kind? path := liftM (Files.kind? path : m _)
  entries? path := liftM (Files.entries? path : m _)
  read? path := liftM (Files.read? path : m _)
  write path text := liftM (Files.write path text : m _)

namespace Files
variable {m : Type → Type} [Monad m] [Files m]

def isPresent (path : String) : m Bool := return (← kind? path).isSome

def isFile (path : String) : m Bool := return (← kind? path) == some .regular

def isDirectory (path : String) : m Bool := return (← kind? path) == some .directory

end Files

end AnnotatedHeader
