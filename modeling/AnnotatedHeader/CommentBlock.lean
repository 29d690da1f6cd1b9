import AnnotatedHeader.DocBlock.Parse
import AnnotatedHeader.SourceLine

/-! Comment blocks: doc comment lines that belong together.

A blank line is part of a block when the next line that is not blank is a doc
comment. A block right before the opening marker of a proxy documents that
proxy; any other is left to the declaration that follows it. Ignored lines are
not looked at. -/
namespace AnnotatedHeader

structure CommentBlock where
  lines : List NumberedLine
  /-- The proxy that the block documents, if it is not a declaration. -/
  proxy : Option String
  deriving DecidableEq, Repr

namespace CommentBlock

def line (b : CommentBlock) : Nat := (b.lines.head?.map Prod.fst).getD 0

def lastLine (b : CommentBlock) : Nat := (b.lines.getLast?.map Prod.fst).getD 0

def toDoc (b : CommentBlock) : DocBlock := DocBlock.ofLines b.lines

def notices (b : CommentBlock) : List Notice := DocBlock.noticesOf b.lines

/-- The first line that is not blank. -/
def follower? (ls : List SourceLine) : Option LineKind := (ls.find? (!·.isBlank)).map (·.kind)

def proxyAt? : Option LineKind → Option String
  | some (.marker (.opens .proxy name)) => some name
  | _ => none

/-- The blocks of the lines, `run` being the block that is open. -/
def groupFrom (run : List NumberedLine) : List SourceLine → List CommentBlock
  | [] => if run.isEmpty then [] else [⟨run, none⟩]
  | l :: ls =>
    match l.kind with
    | .doc text => groupFrom (run ++ [(l.line, text)]) ls
    | _ =>
      if run.isEmpty then groupFrom [] ls
      else
        match follower? (l :: ls) with
        | some (.doc _) => groupFrom (run ++ [(l.line, "")]) ls
        | next => ⟨run, proxyAt? next⟩ :: groupFrom [] ls

def group (lines : List SourceLine) : List CommentBlock :=
  groupFrom [] (lines.filter (·.isVisible))

end CommentBlock

end AnnotatedHeader
