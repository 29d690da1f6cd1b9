import AnnotatedHeader.CommandLine.FilePath
import AnnotatedHeader.CommandLine.Files

/-! File trees: the files below a working directory, held in memory.

A tree is the texts of its files; a directory is there when a file is below it.
Whatever lies above the working directory is a directory of which nothing is known. -/
namespace AnnotatedHeader

structure FileTree where
  /-- Each file by the names that lead to it. -/
  files : List (List String × String) := []
  deriving Repr

namespace FileTree

inductive Place where
  | inside (names : List String)
  | outside
  deriving DecidableEq, Repr

def text? (t : FileTree) (names : List String) : Option String := t.files.lookup names

def isDirectory (t : FileTree) (names : List String) : Bool :=
  names.isEmpty || t.files.any fun (file, _) => names.isPrefixOf file && names.length < file.length

def holds (t : FileTree) (names : List String) : Bool :=
  (t.text? names).isSome || t.isDirectory names

/-- The place that a name leads to. It leads nowhere from a file. -/
def step? (t : FileTree) : Place → String → Option Place
  | .outside, "" | .outside, "." | .outside, ".." => some .outside
  | .outside, _ => none
  | .inside names, name =>
    if t.isDirectory names then
      match name with
      | "" | "." => some (.inside names)
      | ".." => some (if names.isEmpty then .outside else .inside names.dropLast)
      | other => if t.holds (names ++ [other]) then some (.inside (names ++ [other])) else none
    else none

/-- The place that names lead to, from the root if the first is empty. -/
def follow? (t : FileTree) : List String → Option Place
  | "" :: names => names.foldlM t.step? .outside
  | names => names.foldlM t.step? (.inside [])

def locate? (t : FileTree) (path : String) : Option Place :=
  if path.isEmpty then none else t.follow? (FilePath.names path)

def kind? (t : FileTree) (path : String) : Option FileKind := do
  match ← t.locate? path with
  | .outside => return .directory
  | .inside names => return if (t.text? names).isSome then .regular else .directory

/-- The names in a directory, each once. -/
def entries (t : FileTree) (names : List String) : List String :=
  (t.files.filterMap fun (file, _) =>
    if names.isPrefixOf file then file[names.length]? else none).eraseDups

def entries? (t : FileTree) (path : String) : Option (List String) := do
  match ← t.locate? path with
  | .outside => return []
  | .inside names => if t.isDirectory names then return t.entries names else none

def read? (t : FileTree) (path : String) : Option String := do
  match ← t.locate? path with
  | .outside => none
  | .inside names => t.text? names

/-- The tree with one more file, or with another text in it. -/
def set (t : FileTree) (names : List String) (text : String) : FileTree :=
  ⟨(names, text) :: t.files.filter (·.1 ≠ names)⟩

/-- The tree after writing a file, if its directory is there and it is none itself.
What is written outside leaves no trace. -/
def write? (t : FileTree) (path text : String) : Option FileTree := do
  let names := FilePath.names path
  let last ← names.getLast?
  if FilePath.Part.ofName? last ≠ some (.name last) then none
  match ← t.follow? names.dropLast with
  | .outside => return t
  | .inside directory =>
    if t.isDirectory directory && !t.isDirectory (directory ++ [last]) then
      return t.set (directory ++ [last]) text
    else none

/-- The tree of files given by their paths, the later of two at one path. -/
def ofList (files : List (String × String)) : FileTree :=
  files.foldl (fun t (path, text) =>
    t.set ((FilePath.names path).filter fun name => name ≠ "" ∧ name ≠ ".") text) {}

end FileTree

instance : Files (StateM FileTree) where
  kind? path := return (← get).kind? path
  entries? path := return (← get).entries? path
  read? path := return (← get).read? path
  write path text := do
    match (← get).write? path text with
    | some t =>
      set t
      return true
    | none => return false

end AnnotatedHeader
