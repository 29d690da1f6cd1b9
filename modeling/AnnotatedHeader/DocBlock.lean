import AnnotatedHeader.Kind
import AnnotatedHeader.Text.Lines

/-! Doc blocks: the markdown of a doc comment, with its examples and its
cross-references taken out. -/
namespace AnnotatedHeader

/-- A named snippet shown as an example. -/
structure Example where
  snippet : String
  /-- The line of the snippet's name. -/
  line : Nat
  /-- The snippet's text, once it is known. -/
  code : Option String
  deriving DecidableEq, Repr

inductive Segment where
  | markdown (text : String)
  | shown (shown : Example)
  deriving DecidableEq, Repr

structure CrossReference where
  kind : Kind
  path : String
  line : Nat
  /-- The path of the declaration that is meant, once it is known. -/
  target : Option String
  deriving DecidableEq, Repr

structure DocBlock where
  line : Nat
  segments : List Segment
  references : List CrossReference
  deriving DecidableEq, Repr

/-- Code between two fences. -/
def fenced (language code : String) : String := s!"\x60\x60\x60{language}\n{code}\n\x60\x60\x60"

/-- An example without its code is the fence that asks for it. -/
def Example.markdown (x : Example) : String :=
  match x.code with
  | some code => fenced "cpp" code
  | none => fenced "snippet" x.snippet

def Segment.render : Segment → String
  | .markdown text => text
  | .shown x => x.markdown

def Segment.example? : Segment → Option Example
  | .markdown _ => none
  | .shown x => some x

namespace DocBlock

def markdown (b : DocBlock) : String := Text.joinLines (b.segments.map Segment.render)

def examples (b : DocBlock) : List Example := b.segments.filterMap Segment.example?

def isResolved (b : DocBlock) : Bool := b.references.all (·.target.isSome)

end DocBlock

end AnnotatedHeader
