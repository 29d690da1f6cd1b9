import AnnotatedHeader.CommandLine.FilePath
import AnnotatedHeader.Text.Behind

/-! Glob patterns.

A pattern is a path with wildcards in its names: `?` is any character, `*` any run
of characters, `[a-z]` a character of a class and `[!a-z]` one that is not of it.
A name `**` lets the name behind it stand at any depth. `matchesChars_run`
says what a run of characters matches. -/
namespace AnnotatedHeader.Glob

/-- What a piece of a name pattern matches. -/
inductive Atom where
  | char (c : Char)
  | any
  | run
  | oneOf (ranges : List (Char × Char))
  | noneOf (ranges : List (Char × Char))
  deriving DecidableEq, Repr

/-- A name of a path: as it is written, or a pattern. -/
inductive NamePattern where
  | literal (name : String)
  | wild (atoms : List Atom)
  deriving DecidableEq, Repr

structure Step where
  /-- The name may stand at any depth. -/
  deep : Bool
  name : NamePattern
  deriving DecidableEq, Repr

structure Pattern where
  /-- The search starts at the root. -/
  absolute : Bool
  steps : List Step
  /-- Only directories are meant. -/
  directories : Bool
  deriving DecidableEq, Repr

/-! ### Matching -/

def inRanges (c : Char) (ranges : List (Char × Char)) : Bool :=
  ranges.any fun (first, last) => first ≤ c && c ≤ last

/-- Whether a piece other than a run matches a character. -/
def Atom.matchesChar (c : Char) : Atom → Bool
  | .char d => c == d
  | .any => true
  | .run => false
  | .oneOf ranges => inRanges c ranges
  | .noneOf ranges => !inRanges c ranges

def suffixes : List Char → List (List Char)
  | [] => [[]]
  | c :: cs => (c :: cs) :: suffixes cs

theorem mem_suffixes {b cs : List Char} : b ∈ suffixes cs ↔ b <:+ cs := by
  induction cs with
  | nil => simp [suffixes]
  | cons c cs ih => simp [suffixes, ih, List.suffix_cons_iff]

def matchesChars : List Atom → List Char → Bool
  | [], cs => cs.isEmpty
  | .run :: atoms, cs => (suffixes cs).any (matchesChars atoms)
  | _ :: _, [] => false
  | atom :: atoms, c :: cs => atom.matchesChar c && matchesChars atoms cs

theorem matchesChars_run (atoms : List Atom) (cs : List Char) :
    matchesChars (.run :: atoms) cs = true ↔ ∃ b, b <:+ cs ∧ matchesChars atoms b = true := by
  simp [matchesChars, mem_suffixes]

def NamePattern.matchesName (name : String) : NamePattern → Bool
  | .literal text => name == text
  | .wild atoms => matchesChars atoms name.toList

/-! ### Reading -/

/-- The ranges of a class: `a-z` is one, and any other character stands for itself. -/
def ranges : List Char → List (Char × Char)
  | [] => []
  | first :: '-' :: last :: cs => (first, last) :: ranges cs
  | c :: cs => (c, c) :: ranges cs

/-- The characters of a class up to its closing bracket, and what follows. The first
character is of the class whatever it is. -/
def classBody? : (cs : List Char) → Option (List Char × Text.Behind cs)
  | [] => none
  | first :: cs =>
    match h : cs.dropWhile (· ≠ ']') with
    | [] => none
    | _ :: rest =>
      some (first :: cs.takeWhile (· ≠ ']'), ⟨rest, by
        have := (List.dropWhile_suffix (l := cs) (· ≠ ']')).length_le
        rw [h] at this
        simp only [List.length_cons] at this ⊢
        omega⟩)

/-- The pieces of a name pattern. Two runs in a row are refused. -/
def atoms? : List Char → Option (List Atom)
  | [] => some []
  | '*' :: '*' :: _ => none
  | '*' :: cs => (atoms? cs).map (.run :: ·)
  | '?' :: cs => (atoms? cs).map (.any :: ·)
  | '[' :: '!' :: cs =>
    match classBody? cs with
    | some (body, ⟨rest, _⟩) => (atoms? rest).map (.noneOf (ranges body) :: ·)
    | none => none
  | '[' :: cs =>
    match classBody? cs with
    | some (body, ⟨rest, _⟩) => (atoms? rest).map (.oneOf (ranges body) :: ·)
    | none => none
  | c :: cs => (atoms? cs).map (.char c :: ·)
termination_by cs => cs.length
decreasing_by all_goals simp only [List.length_cons]; omega

def isWildcard (c : Char) : Bool := c == '?' || c == '*' || c == '['

def NamePattern.ofText? (name : String) : Option NamePattern :=
  if name.toList.any isWildcard then (atoms? name.toList).map .wild else some (.literal name)

/-- The steps that names stand for, and whether a `**` is left at the end. -/
def steps? (deep : Bool) : List String → Option (List Step × Bool)
  | [] => some ([], deep)
  | "**" :: names => steps? true names
  | name :: names => do
    let pattern ← NamePattern.ofText? name
    let (steps, openEnded) ← steps? false names
    return (⟨deep, pattern⟩ :: steps, openEnded)

/-- The pattern that a text stands for. A slash at the end asks for directories, and
so does a `**` there. -/
def Pattern.ofText? (text : String) : Option Pattern := do
  let absolute := text.startsWith "/"
  let names := FilePath.names text
  let names := if absolute then names.drop 1 else names
  let ended := names.getLast? == some ""
  let (steps, openEnded) ← steps? false (if ended then names.dropLast else names)
  return ⟨absolute, steps, ended || openEnded⟩

end AnnotatedHeader.Glob
