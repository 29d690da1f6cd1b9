import AnnotatedHeader.Document
import AnnotatedHeader.Text.Lines

/-! Headers: a document printed as a header again.

Doc comments, macros, template heads and declarations are printed, and no directive.
An example is printed with its code and a cross-reference as it is written, so the
printed header documents the same things. -/
namespace AnnotatedHeader

/-- A line at a depth of indentation. -/
def indented (depth : Nat) (text : String) : String := .ofList (List.replicate depth '\t') ++ text

def DocBlock.commentLines (depth : Nat) (b : DocBlock) : List String :=
  (Text.lines b.markdown).map fun text =>
    indented depth (if text.isEmpty then "///" else "/// " ++ text)

def docLines (depth : Nat) (doc : Option DocBlock) : List String :=
  (doc.map (·.commentLines depth)).getD []

/-- A signature that ends in a semicolon. -/
def terminated (signature : String) : String :=
  if signature.toList.getLast? = some ';' then signature else signature ++ ";"

def Param.headerLines (depth : Nat) : List Param → List String
  | [] => []
  | p :: ps =>
    docLines depth p.doc ++
      indented depth (p.signature ++ if ps.isEmpty then "" else ",") :: headerLines depth ps

/-- A function with its parameters on lines of their own. -/
def FunctionShape.headerLines (depth : Nat) (name : String) (shape : FunctionShape) : List String :=
  indented depth (shape.lead.elim "" (· ++ " ") ++ name ++ "(") ::
    Param.headerLines (depth + 1) shape.params ++
      [indented depth (shape.qualifiers.elim ");" fun q => ") " ++ q ++ ";")]

namespace Declaration

def variantLines (depth : Nat) (d : Declaration) : List String :=
  docLines depth d.doc ++
    [indented depth (d.signature ++ d.reflection.elim "" (" " ++ ·.toSource) ++ ",")]

/-- What precedes a declaration: its doc block, its macro and its template head. -/
def leadLines (depth : Nat) (own : Declared) : List String :=
  docLines depth own.doc ++ (own.reflection.map (indented depth ·.toSource)).toList ++
    (own.template.map (indented depth)).toList

/-- A head and a body in braces. -/
def bodied (depth : Nat) (signature : String) (body : List String) : List String :=
  indented depth signature :: indented depth "\x7b" :: body ++ [indented depth "\x7d;"]

mutual

def headerLines (depth : Nat) : Declaration → List String
  | ⟨own, members⟩ =>
    let plain := [indented depth (terminated own.signature)]
    let code :=
      match own.item with
      | .enumeration shape =>
        if shape.hasBody then
          bodied depth own.signature (members.flatMap (variantLines (depth + 1)))
        else plain
      | .record key shape =>
        if shape.hasBody || !members.isEmpty then
          bodied depth own.signature (memberLines depth key.visibility true members)
        else plain
      | .function shape =>
        if !own.synthetic && shape.params.any (·.doc.isSome) then
          shape.headerLines depth own.name
        else plain
      | _ => plain
    leadLines depth own ++ code

/-- The members of a record whose visibility so far is `current`. A label stands
where it changes, and an empty line elsewhere between members. -/
def memberLines (depth : Nat) (current : Visibility) (isFirst : Bool) :
    List Declaration → List String
  | [] => []
  | m :: ms =>
    let gap :=
      if m.visibility ≠ current then [indented depth (m.visibility.word ++ ":")]
      else if isFirst then [] else [""]
    gap ++ headerLines (depth + 1) m ++ memberLines depth m.visibility false ms

end

/-- Trees with an empty line between them. -/
def spacedLines : List Declaration → List String
  | [] => []
  | [d] => d.headerLines 0
  | d :: ds => d.headerLines 0 ++ "" :: spacedLines ds

end Declaration

/-- The document as a header. -/
def Document.toHeader (d : Document) : String :=
  String.join ((Declaration.spacedLines d.declarations).map (· ++ "\n"))

end AnnotatedHeader
