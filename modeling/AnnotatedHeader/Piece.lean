import AnnotatedHeader.CommentBlock
import AnnotatedHeader.Token.Lexeme

/-! Pieces: what a declaration parser reads.

The visible code of a header is cut into tokens; the doc blocks of declarations
and the markers of injects are put between them by line. A line that is not
visible code counts as an empty one, so that tokens keep their lines. -/
namespace AnnotatedHeader

inductive Piece where
  | token (token : Token)
  | doc (block : DocBlock)
  | inject (proxy : String) (line : Nat)
  deriving Repr

namespace Piece

def line : Piece → Nat
  | .token t => t.line
  | .doc b => b.line
  | .inject _ line => line

def hasKind (p : Piece) (kind : TokenKind) : Bool :=
  match p with
  | .token t => t.kind == kind
  | _ => false

/-- The code of a line, if it can be seen. -/
def codeOf (l : SourceLine) : String := if l.kind == .code && l.isVisible then l.text else ""

def code (lines : List SourceLine) : String := Text.joinLines (lines.map codeOf)

def firstLine (lines : List SourceLine) : Nat := (lines.head?.map (·.line)).getD 1

def inject? (l : SourceLine) : Option Piece :=
  match l.kind with
  | .marker (.inject proxy) => if l.isVisible then some (.inject proxy l.line) else none
  | _ => none

/-- The blocks that document declarations. -/
def declarationBlocks (blocks : List CommentBlock) : List CommentBlock :=
  blocks.filter (·.proxy.isNone)

/-- By line; tokens precede blocks, and blocks markers, of the same line. -/
def ofLines (lines : List SourceLine) (blocks : List CommentBlock) : List Piece :=
  let tokens := (Token.tokenize (code lines) (firstLine lines)).map .token
  let docs := (declarationBlocks blocks).map fun b => .doc b.toDoc
  (tokens ++ docs ++ lines.filterMap inject?).mergeSort fun a b => a.line ≤ b.line

/-- What there is to say about the code and the blocks. -/
def noticesOf (lines : List SourceLine) (blocks : List CommentBlock) : List Notice :=
  Token.noticesOf (code lines) ++ (declarationBlocks blocks).flatMap (·.notices)

end Piece

end AnnotatedHeader
