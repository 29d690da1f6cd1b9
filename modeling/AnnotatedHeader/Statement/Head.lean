import AnnotatedHeader.Notice
import AnnotatedHeader.Statement
import AnnotatedHeader.Statement.Nesting
import AnnotatedHeader.Token.Spacing

/-! Heads: what a statement declares.

A leading keyword makes an enum or a record, a parameter list a function, and
inside a record anything else a property. Only a property statement can declare
more than one thing. -/
namespace AnnotatedHeader

inductive Head where
  | declares (first : Heading) (others : List Heading)
  | skip (reason : SkipReason)
  deriving DecidableEq, Repr

namespace Head

/-- `none` in place of an empty text. -/
def nonEmpty? (text : String) : Option String := if text.isEmpty then none else some text

/-! ### Enums and records -/

def enumHead (ts : List Token) (hasBody : Bool) : Heading :=
  let isScoped := (ts[1]?).any fun t => t.isIdent "class" || t.isIdent "struct"
  let colon := (findTop? .colon ts).getD ts.length
  let name := ((ts.take colon).drop (if isScoped then 2 else 1)).reverse.find? (·.kind == .ident)
  { name := (name.map (·.text)).getD ""
    signature := Token.join ts
    item := .enumeration
      { isScoped
        underlying := if colon < ts.length then some (Token.join (ts.drop (colon + 1))) else none
        hasBody } }

/-- The identifiers outside angle brackets, `final` apart. -/
def plainIdents (n : Nesting) : List Token → List Token
  | [] => []
  | t :: ts =>
    let rest := plainIdents (n.step t) ts
    if t.kind == .ident && n.angle == 0 && !t.isIdent "final" then t :: rest else rest

def recordKeywords : List String := ["struct", "class", "union"]

/-- Whether a statement that starts with a record's keyword declares a record. -/
def isRecordHead (ts : List Token) : Bool :=
  ts.all fun t =>
    !(t.kind == .lparen || t.kind == .equals || t.kind == .lbrace || t.isPointer)

/-- The head of a record, from behind its keyword. -/
def recordHead (keyword : Token) (ts : List Token) (hasBody : Bool) : Head :=
  let start : Nesting := Nesting.step {} keyword
  let colon := (Nesting.findFrom .colon start ts).getD ts.length
  let idents := plainIdents start (ts.take colon)
  match idents.getLast? with
  | none => .skip .anonymousRecord
  | some name =>
    let api := " ".intercalate (idents.dropLast.map (·.text))
    let bases := if colon < ts.length then commaParts (ts.drop (colon + 1)) else []
    let shape : RecordShape :=
      { api := nonEmpty? api
        bases := (bases.map fun (_, part) => Token.join part).filter (!·.isEmpty)
        hasBody }
    let key := if keyword.isIdent "class" then RecordKey.classKey else .structKey
    .declares ⟨name.text, Token.join (keyword :: ts), .record key shape⟩ []

/-! ### Declarators -/

/-- Reversed tokens without the array extents they start with. -/
def dropExtents : List Token → Option (List Token)
  | [] => some []
  | t :: ts =>
    if t.kind = .rbracket then
      match _h : ts.dropWhile (·.kind != .lbracket) with
      | _ :: rest => dropExtents rest
      | [] => none
    else some (t :: ts)
termination_by ts => ts.length
decreasing_by
  have hlen := (List.dropWhile_sublist (l := ts) (·.kind != .lbracket)).length_le
  rw [_h, List.length_cons] at hlen
  rw [List.length_cons]
  omega

/-- A declarator cut at the name it declares: the last token, array extents apart. -/
structure Declarator where
  type : List Token
  name : Token
  extents : List Token

def declarator? (ts : List Token) : Option Declarator :=
  match dropExtents ts.reverse with
  | some (name :: before) =>
    if name.kind = .ident then some ⟨before.reverse, name, ts.drop (before.length + 1)⟩ else none
  | _ => none

/-! ### Functions -/

def builtinTypes : List String :=
  [ "void", "bool", "char", "short", "int", "long", "float", "double", "signed", "unsigned",
    "auto", "const", "volatile", "int8", "int16", "int32", "int64", "uint8", "uint16", "uint32",
    "uint64" ]

def specifiers : List String :=
  ["virtual", "explicit", "inline", "static", "constexpr", "consteval", "FORCEINLINE"]

/-- Whether a parameter's last identifier is its name and not the end of its type. -/
def namesParam (d : Declarator) : Bool :=
  !d.type.isEmpty && !builtinTypes.any (d.name.isIdent ·) &&
    d.type.getLast?.all (·.kind != .scope)

def param (ts : List Token) (doc : Option DocBlock) : Param :=
  let eq := findTop? .equals ts
  let decl := ts.take (eq.getD ts.length)
  let default := eq.map fun i => Token.join (ts.drop (i + 1))
  match (declarator? decl).filter namesParam with
  | some d => ⟨some d.name.text, Token.join (d.type ++ d.extents), default, doc⟩
  | none => ⟨none, Token.join decl, default, doc⟩

/-- The parameters of parts that end at place `stop`; a part's doc block is the last
one placed in it. -/
def paramsOf (docs : List (Nat × DocBlock)) (stop : Nat) :
    List (Nat × List Token) → List Param
  | [] => []
  | (start, part) :: parts =>
    let stopHere := (parts.head?.map Prod.fst).getD stop
    let doc := (docs.filter fun (at_, _) => start ≤ at_ && at_ < stopHere).getLast?.map Prod.snd
    param part doc :: paramsOf docs stop parts

/-- The parameters between two parentheses; `start` is the place of the first token
behind the opening one. -/
def params (docs : List (Nat × DocBlock)) (start : Nat) (inside : List Token) : List Param :=
  let isVoid :=
    match inside with
    | [] => true
    | [t] => t.isIdent "void"
    | _ => false
  if isVoid then []
  else paramsOf docs (start + inside.length)
    ((commaParts inside).map fun (offset, part) => (start + offset, part))

/-- A function's name and what precedes it, from the tokens before its parameters. -/
def functionName? (ts : List Token) : Option (String × List Token) :=
  let operatorName := (ts.reverse.takeWhile (!·.isIdent "operator")).reverse
  match ts.reverse.dropWhile (!·.isIdent "operator") with
  | word :: before =>
    some (String.join ((word :: operatorName).map (·.text)), before.reverse)
  | [] =>
    match ts.reverse with
    | name :: before =>
      if name.kind = .ident then
        match before with
        | tilde :: rest =>
          if tilde.kind = .tilde then some ("~" ++ name.text, rest.reverse)
          else some (name.text, before.reverse)
        | [] => some (name.text, [])
      else none
    | [] => none

/-- The record that a constructor or destructor of this name belongs to. -/
def constructed (name : String) : String :=
  match name.toList with
  | '~' :: rest => .ofList rest
  | _ => name

/-- The head of a function, cut at its parameter list. -/
def functionHead (s : Statement) (record : Option String) (before rest : List Token) : Head :=
  match splitClose? 0 rest with
  | none => .skip .unbalancedParameters
  | some (inside, behind) =>
    match functionName? before with
    | none => .skip .callExpression
    | some (name, lead) =>
      if lead.getLast?.any (·.kind == .scope) then .skip .outOfLine
      else
        let onlySpecifiers := lead.all fun t => specifiers.any (t.isIdent ·)
        let special := onlySpecifiers && record == some (constructed name)
        if onlySpecifiers && !special then .skip .macroInvocation
        else
          let qualifiers := behind.takeWhile (·.kind != .colon)
          let length := before.length + inside.length + qualifiers.length + 2
          .declares
            { name
              signature := Token.join (s.tokens.take length)
              item := .function
                { lead := if lead.isEmpty then none else some (Token.join lead)
                  params := params s.paramDocs (before.length + 1) inside
                  qualifiers := nonEmpty? (Token.join qualifiers)
                  special
                  hasBody := s.hasBody } }
            []

/-! ### Properties -/

/-- The property that a declarator declares with the type before it. -/
def property? (ts : List Token) : Option Heading :=
  let eq := findTop? .equals ts
  let brace := findTop? .lbrace ts
  let stop := (eq <|> brace).getD ts.length
  let default :=
    match eq, brace with
    | some i, _ => some (Token.join (ts.drop (i + 1)))
    | none, some i => some (Token.join (ts.drop i))
    | none, none => none
  let decl := ts.take stop
  match declarator? (decl.take ((findTop? .colon decl).getD decl.length)) with
  | some d =>
    let type := d.type.filter (!·.isIdent "static")
    if type.isEmpty then none
    else some
      { name := d.name.text
        signature := Token.join ts
        item := .property
          { type := Token.join type
            array :=
              if d.extents.isEmpty then none else some (Token.join d.extents.tail.dropLast)
            default
            isStatic := d.type.any (·.isIdent "static") } }
  | none => none

/-- The type that further declarators share: what precedes the first name, pointer
marks at its end apart. -/
def sharedType (first : List Token) (name : String) : List Token :=
  if first.any (·.isIdent name) then
    ((first.takeWhile (!·.isIdent name)).reverse.dropWhile (·.isPointer)).reverse
  else []

def propertyHeads (ts : List Token) : Head :=
  match commaParts ts with
  | (_, part) :: parts =>
    match property? part with
    | some first =>
      let base := sharedType part first.name
      .declares first (parts.filterMap fun (_, p) => property? (base ++ p))
    | none => .skip .statement
  | [] => .skip .statement

/-! ### All of them -/

/-- What the statement declares; `record` is the name of the record around it. -/
def classify (s : Statement) (record : Option String) : Head :=
  match s.tokens with
  | [] => .skip .statement
  | first :: rest =>
    if first.isIdent "enum" then .declares (enumHead s.tokens s.hasBody) []
    else if recordKeywords.any (first.isIdent ·) && isRecordHead s.tokens then
      recordHead first rest s.hasBody
    else
      match splitCall? s.tokens with
      | some (before, behind) => functionHead s record before behind
      | none =>
        if record.isSome && !s.hasBody then propertyHeads s.tokens else .skip .statement

end Head

end AnnotatedHeader
