import AnnotatedHeader.Declaration
import AnnotatedHeader.Token

/-! Statements: what stands between two ends of statements in a scope. -/
namespace AnnotatedHeader

structure Statement where
  tokens : List Token
  /-- Doc blocks inside parentheses, each with the place of the token behind it. -/
  paramDocs : List (Nat × DocBlock)
  /-- Whether a body's `{` ended the statement. -/
  hasBody : Bool
  line : Nat
  deriving Repr

/-- What one head declares, its path and its docs apart. -/
structure Heading where
  name : String
  signature : String
  item : Item
  deriving DecidableEq, Repr

end AnnotatedHeader
