import AnnotatedHeader.SourceLine.Directive
import AnnotatedHeader.Text.Lines

/-! Classifying the lines of a header.

`LineKind.read` says what a line is from its text alone; `SourceLine.classify`
numbers the lines of a source and follows which of them are ignored. The first
line that breaks a rule is the fault, and an ignored block left open is one only
when no line is. -/
namespace AnnotatedHeader

open Text

/-- The text behind `////`, one white space character after it dropped. -/
def toolText? (cs : List Char) : Option (List Char) :=
  (afterLead? ['/', '/', '/', '/'] (cs.dropWhile isAsciiSpace)).map fun rest =>
    match rest with
    | c :: tail => if isAsciiSpace c then tail else rest
    | [] => []

/-- The text behind `///` when no fourth slash follows, one space after it dropped. -/
def docText? (cs : List Char) : Option (List Char) :=
  match afterLead? ['/', '/', '/'] (cs.dropWhile isAsciiSpace) with
  | some ('/' :: _) => none
  | some (' ' :: rest) => some rest
  | found => found

/-- What a line is. Flawed is only a tool comment that has a directive's form. -/
def LineKind.read (cs : List Char) : Except Cause LineKind :=
  match toolText? cs with
  | some content =>
    match Directive.read? (trim content) with
    | some (.ok directive) => .ok (.marker directive)
    | some (.error flaw) => .error (.malformedDirective (.ofList (trim content)) flaw)
    | none => .ok (.tool (.ofList (trimEnd content)))
  | none =>
    match docText? cs with
    | some body => .ok (.doc (.ofList (trimEnd body)))
    | none => .ok .code

/-- Whether a line of this kind is ignored, and the line of the ignored block
that is open after it. -/
def ignoring (opened : Option Nat) (line : Nat) (text : List Char) :
    LineKind → Except Cause (Bool × Option Nat)
  | .marker .ignore =>
    match opened with
    | some outer => .error (.nested .ignored .ignored outer)
    | none => .ok (true, some line)
  | .marker .endIgnore =>
    match opened with
    | some _ => .ok (true, none)
    | none => .error (.unmatchedEnd .ignore)
  | .marker (.opens ..) | .marker (.closes _) =>
    match opened with
    | some outer => .error (.insideIgnored (.ofList (trim text)) outer)
    | none => .ok (false, none)
  | _ => .ok (opened.isSome, opened)

namespace SourceLine

/-- The bytes that a line takes in UTF-8, its line feed included. -/
def byteLength (raw : List Char) : Nat := (String.ofList raw).utf8ByteSize + 1

def classifyFrom (opened : Option Nat) (line offset : Nat) :
    List (List Char) → Except Fault (List SourceLine)
  | [] =>
    match opened with
    | some outer => .error ⟨outer, .unterminated .ignored⟩
    | none => .ok []
  | raw :: raws => do
    let text := withoutFinal '\r' raw
    let kind ← (LineKind.read text).mapError (Fault.mk line)
    let (ignored, opened) ← (ignoring opened line text kind).mapError (Fault.mk line)
    let rest ← classifyFrom opened (line + 1) (offset + byteLength raw) raws
    return ⟨line, offset, .ofList text, kind, ignored⟩ :: rest

def classify (source : String) : Except Fault (List SourceLine) :=
  classifyFrom none 1 0 (fileLines source.toList)

end SourceLine

end AnnotatedHeader
