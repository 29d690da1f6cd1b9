import AnnotatedHeader.Text.Lines

/-! Paths of files: the names in them, their order, and names put behind a directory.

Paths are text and are shown as they were written. Two of them are compared by
their parts, for which doubled slashes and single points inside do not count;
`notAfter_trans` and `notAfter_total` say that this orders them. -/
namespace AnnotatedHeader.FilePath

/-- The runs between slashes. -/
def names (path : String) : List String := (Text.splitOn '/' path.toList).map .ofList

inductive Part where
  | root
  /-- The point that a path may start with. -/
  | current
  /-- Two points: the directory above. -/
  | parent
  | name (text : String)
  deriving DecidableEq, Repr

namespace Part

def rank : Part → Nat
  | .root => 0
  | .current => 1
  | .parent => 2
  | .name _ => 3

def text : Part → String
  | .name text => text
  | _ => ""

/-- Names come last, by code points. -/
instance : Ord Part := ⟨compareLex (compareOn rank) (compareOn text)⟩

instance : Std.TransOrd Part :=
  inferInstanceAs (Std.TransCmp (compareLex (compareOn rank) (compareOn text)))

/-- The part that a name stands for behind a slash. -/
def ofName? : String → Option Part
  | "" | "." => none
  | ".." => some .parent
  | other => some (.name other)

/-- The part that the first name of a path stands for. -/
def ofFirst? : String → Option Part
  | "" => some .root
  | "." => some .current
  | other => ofName? other

end Part

def parts (path : String) : List Part :=
  match names path with
  | [] | [""] => []
  | first :: rest => (Part.ofFirst? first).toList ++ rest.filterMap Part.ofName?

/-- Whether two paths have the same parts. -/
def same (a b : String) : Bool := parts a == parts b

def notAfter (a b : String) : Bool := (compare (parts a) (parts b)).isLE

theorem notAfter_trans {a b c : String} (hab : notAfter a b) (hbc : notAfter b c) :
    notAfter a c :=
  Std.TransCmp.isLE_trans hab hbc

theorem notAfter_total (a b : String) : (notAfter a b || notAfter b a) = true := by
  simp only [notAfter]
  rw [Std.OrientedOrd.eq_swap (a := parts b)]
  cases compare (parts a) (parts b) <;> rfl

/-- Paths in the order of their parts; of those with the same parts, the first. -/
def sorted (paths : List String) : List String :=
  (paths.mergeSort notAfter).eraseRepsBy same

/-- The path of a name in a directory. -/
def join (directory name : String) : String :=
  if directory.isEmpty || directory.endsWith "/" then directory ++ name
  else directory ++ "/" ++ name

/-- The text behind the last slash. -/
def lastName (path : String) : String := (names path).getLastD ""

/-- What stands behind the last point of a name that does not start with it. -/
def extension? (name : String) : Option String :=
  let reversed := name.toList.reverse
  let extension := reversed.takeWhile (· ≠ '.')
  match reversed.drop extension.length with
  | '.' :: _ :: _ => some (.ofList extension.reverse)
  | _ => none

/-- The extensions of header files. -/
def headerExtensions : List String := ["h", "hh", "hpp", "hxx", "inl"]

def isHeader (name : String) : Bool :=
  match extension? name with
  | some extension => headerExtensions.contains extension
  | none => false

end AnnotatedHeader.FilePath
