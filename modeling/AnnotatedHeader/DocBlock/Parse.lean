import AnnotatedHeader.DocBlock.Link
import AnnotatedHeader.Notice
import AnnotatedHeader.SourceLine.Directive

/-! Reading doc blocks.

The lines of a comment become parts (`Part.scan`): prose, which alone may hold
links; text in or around a code fence; and examples. Segments, cross-references
and notices are then functions of the parts. -/
namespace AnnotatedHeader

open Text

/-- A numbered line of a comment. -/
abbrev NumberedLine := Nat × String

namespace DocBlock

inductive Part where
  | prose (line : Nat) (text : String)
  /-- A line that opens, closes or stands inside a code fence. -/
  | verbatim (text : String)
  /-- A snippet fence that names no snippet opens an ordinary fence. -/
  | unnamed (line : Nat) (text : String)
  | shown (snippet : String) (line : Nat)
  deriving DecidableEq, Repr

/-! ### Fences -/

inductive Fence where
  | backquotes
  | tildes
  deriving DecidableEq, Repr

def Fence.sign : Fence → List Char
  | .backquotes => ['\x60', '\x60', '\x60']
  | .tildes => ['~', '~', '~']

/-- Whether a trimmed line starts with the fence's sign. -/
def Fence.starts (f : Fence) (trimmed : List Char) : Bool := f.sign.isPrefixOf trimmed

def Fence.opened? (trimmed : List Char) : Option Fence :=
  [backquotes, tildes].find? (·.starts trimmed)

/-- Three backquotes and the word `snippet`. -/
def asksForSnippet (trimmed : List Char) : Bool :=
  match afterLead? Fence.backquotes.sign trimmed with
  | some rest =>
    match afterLead? "snippet".toList (rest.dropWhile isAsciiSpace) with
    | some tail => tail.all isAsciiSpace
    | none => false
  | none => false

/-- The region name that a line holds alone; slashes and white space may precede it. -/
def snippetName? (cs : List Char) : Option String :=
  let cs := cs.dropWhile fun c => c == '/' || isAsciiSpace c
  let name := cs.takeWhile fun c => isIdentRest c || c == '-'
  if isRegionName name && (cs.drop name.length).all isAsciiSpace then some (.ofList name) else none

def isBlankLine (l : NumberedLine) : Bool := isBlank l.2.toList

/-- Reads the inside of a snippet fence: a name, then the closing fence, blank
lines apart. Answers the example's name and line and the lines after the fence. -/
def fencedSnippet? (ls : List NumberedLine) : Option (NumberedLine × List NumberedLine) :=
  match ls.dropWhile isBlankLine with
  | (line, text) :: rest =>
    match snippetName? text.toList, rest.dropWhile isBlankLine with
    | some name, (_, close) :: after =>
      if trim close.toList = Fence.backquotes.sign then some ((line, name), after) else none
    | _, _ => none
  | [] => none

theorem length_fencedSnippet? {ls after : List NumberedLine} {found : NumberedLine}
    (h : fencedSnippet? ls = some (found, after)) : after.length < ls.length := by
  have hls := (List.dropWhile_sublist isBlankLine (l := ls)).length_le
  unfold fencedSnippet? at h
  split at h
  · rename_i line text rest hd
    rw [hd, List.length_cons] at hls
    have hrest := (List.dropWhile_sublist isBlankLine (l := rest)).length_le
    split at h
    · rename_i hn hr
      rw [hr, List.length_cons] at hrest
      split at h
      · simp only [Option.some.injEq, Prod.mk.injEq] at h
        obtain ⟨-, rfl⟩ := h
        omega
      · cases h
    · cases h
  · cases h

/-! ### Parts -/

/-- The parts of a comment's lines; `fence` is the fence that is open. -/
def Part.scan (fence : Option Fence) : List NumberedLine → List Part
  | [] => []
  | (line, text) :: ls =>
    let trimmed := trim text.toList
    match fence with
    | some f => .verbatim text :: Part.scan (if f.starts trimmed then none else some f) ls
    | none =>
      if asksForSnippet trimmed then
        match _h : fencedSnippet? ls with
        | some ((at_, name), after) => .shown name at_ :: Part.scan none after
        | none => .unnamed line text :: Part.scan (some .backquotes) ls
      else
        match Fence.opened? trimmed with
        | some f => .verbatim text :: Part.scan (some f) ls
        | none => .prose line text :: Part.scan none ls
termination_by ls => ls.length
decreasing_by
  all_goals simp only [List.length_cons]
  any_goals omega
  have := length_fencedSnippet? _h
  omega

def Part.text? : Part → Option String
  | .prose _ text | .verbatim text | .unnamed _ text => some text
  | .shown .. => none

/-- Runs of text become markdown, line by line; `run` is the text met since the
last example. -/
def segmentsFrom (run : List String) : List Part → List Segment
  | [] => if run.isEmpty then [] else [.markdown (joinLines run)]
  | .shown snippet line :: ps =>
    segmentsFrom run [] ++ .shown ⟨snippet, line, none⟩ :: segmentsFrom [] ps
  | .prose _ text :: ps | .verbatim text :: ps | .unnamed _ text :: ps =>
    segmentsFrom (run ++ [text]) ps

def Part.references : Part → List CrossReference
  | .prose line text => (Link.scan text.toList).filterMap (·.reference? line)
  | _ => []

def Part.notices : Part → List Notice
  | .prose line text =>
    ((Link.scan text.toList).filter fun l => (Kind.ofHint? l.hint).isNone).map fun l =>
      .unknownKind line l.hint
  | .unnamed line _ => [.unnamedFence line]
  | _ => []

/-! ### Blocks -/

/-- The lines between the first and the last that are not blank, ends included. -/
def withoutBlankEnds (ls : List NumberedLine) : List NumberedLine :=
  ((ls.reverse.dropWhile isBlankLine).reverse).dropWhile isBlankLine

def partsOf (ls : List NumberedLine) : List Part := Part.scan none (withoutBlankEnds ls)

/-- The doc block that a comment's lines hold. Its line is the first one, blank
or not. -/
def ofLines (ls : List NumberedLine) : DocBlock :=
  { line := (ls.head?.map Prod.fst).getD 0
    segments := segmentsFrom [] (partsOf ls)
    references := (partsOf ls).flatMap Part.references }

/-- What there is to say about a comment's lines. -/
def noticesOf (ls : List NumberedLine) : List Notice := (partsOf ls).flatMap Part.notices

end DocBlock

end AnnotatedHeader
