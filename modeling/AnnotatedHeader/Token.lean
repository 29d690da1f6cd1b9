/-! Tokens of a header's code. -/
namespace AnnotatedHeader

inductive TokenKind where
  | ident
  | number
  | string
  | char
  | scope
  | lparen
  | rparen
  | lbrace
  | rbrace
  | lbracket
  | rbracket
  | less
  | greater
  | comma
  | semi
  | colon
  | equals
  | tilde
  | op
  | lineComment
  | blockComment
  | preprocessor
  deriving DecidableEq, Repr, Inhabited

/-- Comments and preprocessor lines stand between tokens. -/
def TokenKind.isTrivia : TokenKind → Bool
  | .lineComment | .blockComment | .preprocessor => true
  | _ => false

structure Token where
  kind : TokenKind
  text : String
  line : Nat
  deriving DecidableEq, Repr, Inhabited

namespace Token

def isIdent (t : Token) (text : String) : Bool := t.kind == .ident && t.text == text

def isOp (t : Token) (text : String) : Bool := t.kind == .op && t.text == text

/-- The marks that make a pointer or a reference of a type. -/
def isPointer (t : Token) : Bool := t.isOp "*" || t.isOp "&" || t.isOp "&&"

end Token

end AnnotatedHeader
