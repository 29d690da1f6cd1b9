import AnnotatedHeader.Fault
import AnnotatedHeader.Text.Blank

/-! Lines of a header and what each one is. -/
namespace AnnotatedHeader

/-- A bracketed directive. -/
inductive Directive where
  | opens (kind : RegionKind) (name : String)
  | closes (kind : RegionKind)
  | inject (proxy : String)
  | ignore
  | endIgnore
  deriving DecidableEq, Repr

inductive LineKind where
  /-- Source code; a blank line is code too. -/
  | code
  /-- A `///` comment, without its sign. -/
  | doc (text : String)
  /-- A `////` comment that holds no directive, without its sign. -/
  | tool (text : String)
  | marker (directive : Directive)
  deriving DecidableEq, Repr

def LineKind.isMarker : LineKind → Bool
  | .marker _ => true
  | _ => false

structure SourceLine where
  /-- Counted from one. -/
  line : Nat
  /-- Where the line starts, in bytes of UTF-8. -/
  offset : Nat
  /-- The line without its terminator. -/
  text : String
  kind : LineKind
  /-- Whether the line belongs to an ignored block, its two markers included. -/
  ignored : Bool
  deriving DecidableEq, Repr

def SourceLine.isVisible (l : SourceLine) : Bool := !l.ignored

def SourceLine.isBlank (l : SourceLine) : Bool :=
  l.kind == .code && Text.isBlank l.text.toList

end AnnotatedHeader
