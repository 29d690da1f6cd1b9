import AnnotatedHeader.Token

/-! Spacing: tokens written as normalized code.

Whether a space stands between two tokens depends on the two and on the token
before them, which tells a sign with one operand from one with two. -/
namespace AnnotatedHeader.Token

/-- Nothing separates these from what precedes them. -/
def closesUp (next : Token) : Bool :=
  match next.kind with
  | .comma | .semi | .rparen | .rbracket | .scope | .greater | .rbrace => true
  | _ => false

/-- Nothing separates these from what follows them. -/
def holdsOn (prev : Token) : Bool :=
  match prev.kind with
  | .lparen | .lbracket | .scope | .less | .lbrace | .tilde => true
  | _ => false

def isAccess (t : Token) : Bool := t.isOp "." || t.isOp "->"

/-- A sign that can have a single operand. -/
def isSign (t : Token) : Bool :=
  t.isOp "-" || t.isOp "+" || t.isOp "!" || t.isOp "&" || t.isOp "*" || t.kind == .tilde

/-- After such a token, or at the start, a sign has a single operand. -/
def startsOperand : Option Token → Bool
  | none => true
  | some t =>
    match t.kind with
    | .equals | .lparen | .comma | .lbracket | .lbrace | .op => true
    | _ => t.isIdent "return"

def isUnary (before : Option Token) (prev : Token) : Bool := prev.isSign && startsOperand before

/-- The spacing of tokens that neither close up nor hold on. -/
def spaced (before : Option Token) (prev next : Token) : Bool :=
  match next.kind with
  | .lparen =>
    !(prev.kind == .ident || prev.kind == .greater || prev.kind == .rparen ||
      prev.kind == .rbracket || before.any (·.isIdent "operator"))
  | .lbracket => !(prev.kind == .ident || prev.kind == .rbracket)
  | .less => !(prev.kind == .ident && !prev.isIdent "template")
  | .op =>
    if next.isPointer then
      !(prev.kind == .ident || prev.kind == .greater || prev.kind == .rbracket || prev.isPointer)
    else !prev.isIdent "operator"
  | _ => true

/-- Whether a space stands between `prev` and `next`. -/
def needsSpace (before : Option Token) (prev next : Token) : Bool :=
  !next.closesUp && !prev.holdsOn && !prev.isAccess && !next.isAccess && !isUnary before prev &&
    spaced before prev next

/-- The text of tokens that follow `prev`, which follows `before`. -/
def joinAfter (before : Option Token) (prev : Token) : List Token → String
  | [] => ""
  | t :: ts => (if needsSpace before prev t then " " else "") ++ t.text ++ joinAfter (some prev) t ts

/-- Tokens as normalized code. -/
def join : List Token → String
  | [] => ""
  | t :: ts => t.text ++ joinAfter none t ts

end AnnotatedHeader.Token
