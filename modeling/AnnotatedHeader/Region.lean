import AnnotatedHeader.Region.Dedent
import AnnotatedHeader.SourceLine
import AnnotatedHeader.Text.Lines

/-! Regions: the named snippets and proxies of a header.

One region of each kind can be open at a time. A snippet captures code and doc
comments as they stand; a proxy captures code and the text of tool comments, and
no doc comment may stand in it. Markers and ignored lines are captured by
neither. -/
namespace AnnotatedHeader

structure Region where
  kind : RegionKind
  name : String
  /-- The line of the opening marker. -/
  line : Nat
  /-- The captured lines, dedented. -/
  lines : List String
  deriving DecidableEq, Repr

def Region.text (r : Region) : String := Text.joinLines r.lines

/-- The first captured line that is not blank, trimmed. -/
def Region.firstLine? (r : Region) : Option String :=
  (r.lines.map Text.trimmed).find? (!·.isEmpty)

/-- The regions of one header in the order in which they close. -/
structure Regions where
  closed : List Region := []
  deriving DecidableEq, Repr

namespace Regions

def get? (rs : Regions) (kind : RegionKind) (name : String) : Option Region :=
  rs.closed.find? fun r => r.kind = kind && r.name == name

/-- The regions of one kind, by name. -/
def ofKind (rs : Regions) (kind : RegionKind) : List Region :=
  (rs.closed.filter (·.kind = kind)).mergeSort fun a b => a.name ≤ b.name

/-- Snippets before proxies, each by name. -/
def toList (rs : Regions) : List Region := rs.ofKind .snippet ++ rs.ofKind .proxy

def size (rs : Regions) : Nat := rs.closed.length

/-- A region whose end has not been met; the lines are captured as they stand. -/
structure Open where
  name : String
  line : Nat
  lines : List String := []
  deriving DecidableEq, Repr

def Open.capture (text : String) (o : Open) : Open := { o with lines := o.lines ++ [text] }

def Open.close (kind : RegionKind) (o : Open) : Region :=
  ⟨kind, o.name, o.line, (Region.dedent (o.lines.map String.toList)).map .ofList⟩

/-- What has been captured so far. -/
structure Capture where
  snippet : Option Open := none
  proxy : Option Open := none
  regions : Regions := {}

def Capture.opened (c : Capture) : RegionKind → Option Open
  | .snippet => c.snippet
  | .proxy => c.proxy

def Capture.setOpened (c : Capture) (kind : RegionKind) (o : Option Open) : Capture :=
  match kind with
  | .snippet => { c with snippet := o }
  | .proxy => { c with proxy := o }

def Capture.open (c : Capture) (kind : RegionKind) (name : String) (line : Nat) :
    Except Fault Capture :=
  match c.opened kind with
  | some outer =>
    .error ⟨line, .nested (.region kind name) (.region kind outer.name) outer.line⟩
  | none => .ok (c.setOpened kind (some { name, line }))

def Capture.close (c : Capture) (kind : RegionKind) (line : Nat) : Except Fault Capture :=
  match c.opened kind with
  | none => .error ⟨line, .unmatchedEnd (.region kind)⟩
  | some o =>
    match c.regions.get? kind o.name with
    | some first => .error ⟨o.line, .duplicateName kind o.name first.line⟩
    | none =>
      .ok { c.setOpened kind none with regions := ⟨c.regions.closed ++ [o.close kind]⟩ }

def Capture.step (c : Capture) (l : SourceLine) : Except Fault Capture :=
  match l.kind with
  | .marker (.opens kind name) => c.open kind name l.line
  | .marker (.closes kind) => c.close kind l.line
  | .marker _ => .ok c
  | .tool text =>
    .ok (if l.isVisible then { c with proxy := c.proxy.map (·.capture text) } else c)
  | .doc _ =>
    if l.isVisible then
      match c.proxy with
      | some o => .error ⟨l.line, .emptyProxy o.name⟩
      | none => .ok { c with snippet := c.snippet.map (·.capture l.text) }
    else .ok c
  | .code =>
    .ok (if l.isVisible then
      { c with
        snippet := c.snippet.map (·.capture l.text)
        proxy := c.proxy.map (·.capture l.text) }
    else c)

def Capture.finish (c : Capture) : Except Fault Regions :=
  match c.snippet, c.proxy with
  | some o, _ => .error ⟨o.line, .unterminated (.region .snippet o.name)⟩
  | none, some o => .error ⟨o.line, .unterminated (.region .proxy o.name)⟩
  | none, none => .ok c.regions

/-- The regions that the markers of a header delimit. -/
def extract (lines : List SourceLine) : Except Fault Regions :=
  lines.foldlM Capture.step {} >>= Capture.finish

end Regions

end AnnotatedHeader
