import AnnotatedHeader.CommandLine.Files
import AnnotatedHeader.CommandLine.Glob

/-! Searching for the paths that a glob pattern stands for. -/
namespace AnnotatedHeader.Glob
variable {m : Type → Type} [Monad m] [Files m]

/-- No path that a system accepts has more names than this. -/
def maxDepth : Nat := 4096

/-- The path of a name in a directory. The working directory is left out. -/
def inside (directory name : String) : String :=
  if FilePath.parts directory == [.current] then name else FilePath.join directory name

/-- The paths of what a directory holds and of what is below, so many levels down. -/
def descendants : Nat → String → m (List String)
  | 0, _ => return []
  | depth + 1, directory => do
    let found := ((← Files.entries? directory).getD []).map (inside directory)
    let below ← found.mapM (descendants depth)
    return found ++ below.flatten

/-- The names `.` and `..`, if a pattern that starts with a point matches them. -/
def points : List Atom → List String
  | .char '.' :: atoms => [".", ".."].filter fun name => matchesChars (.char '.' :: atoms) name.toList
  | _ => []

/-- The paths that a step leads to. -/
def Step.next (path : String) : Step → m (List String)
  | ⟨true, pattern⟩ =>
    return (← descendants maxDepth path).filter fun p => pattern.matchesName (FilePath.lastName p)
  | ⟨false, .literal name⟩ => do
    let found ←
      if name == "." || name == ".." then Files.isDirectory path
      else Files.isPresent (inside path name)
    return if found then [inside path name] else []
  | ⟨false, .wild atoms⟩ => do
    match ← Files.entries? path with
    | none => return []
    | some names =>
      return (names.filter fun name => matchesChars atoms name.toList).map (inside path) ++
        (points atoms).map (FilePath.join path)

def search : List Step → String → m (List String)
  | [], path => return [path]
  | s :: steps, path => do
    let found ← (← Step.next path s).mapM (search steps)
    return found.flatten

/-- The files that a pattern stands for. -/
def Pattern.files (p : Pattern) : m (List String) := do
  if p.directories then return []
  else (← search p.steps (if p.absolute then "/" else ".")).filterM Files.isFile

end AnnotatedHeader.Glob
