import AnnotatedHeader.EnumBody
import AnnotatedHeader.Statement.Head

/-! Scopes: what a file, a namespace or a record declares.

A scope is read one turn at a time. A turn takes one item off the pieces — a doc
block, a marker, a macro, a label, a statement — and either leaves the scope as it
was with more in it, closes it, or opens a scope inside it. Doc blocks, reflection
macros and template heads wait for the declaration they belong to. -/
namespace AnnotatedHeader

structure Scope where
  path : String
  /-- The name of the struct or class that the scope is the body of. -/
  record : Option String
  /-- The visibility above the first label. -/
  visibility : Visibility
  /-- Whether a brace ends the scope. -/
  braced : Bool
  deriving Repr

namespace Scope

def file : Scope := ⟨"", none, .everyone, false⟩

/-- The body of a namespace, which can be unnamed. -/
def inNamespace (s : Scope) (name : String) : Scope :=
  ⟨if name.isEmpty then s.path else QualifiedPath.join s.path name, none, .everyone, true⟩

def ofRecord (path name : String) (key : RecordKey) : Scope := ⟨path, some name, key.visibility, true⟩

/-- What waits for a declaration. -/
structure Pending where
  doc : Option DocBlock := none
  reflection : Option Reflection := none
  template : Option String := none
  deriving Repr

/-- What has been read of a scope. -/
structure State where
  visibility : Visibility
  pending : Pending := {}
  members : List Declaration := []
  injects : List InjectSite := []
  deriving Repr

def start (s : Scope) : State := { visibility := s.visibility }

/-- What a scope declares. -/
structure Contents where
  declarations : List Declaration
  injects : List InjectSite
  deriving Repr

/-- What becomes of a scope when one opened inside it has closed. -/
inductive Frame where
  /-- Its declarations are the outer scope's. -/
  | transparent (state : State)
  /-- They are the members of a declaration. -/
  | memberOf (state : State) (own : Declared)
  deriving Repr

inductive Turn where
  | closes (rest : List Piece)
  | continues (state : State) (rest : List Piece)
  | opens (inner : Scope) (frame : Frame) (rest : List Piece)
  deriving Repr

def Turn.rest : Turn → List Piece
  | .closes rest => rest
  | .continues _ rest => rest
  | .opens _ _ rest => rest

/-! ### State -/

namespace State

def addInject (b : State) (site : InjectSite) : State := { b with injects := b.injects ++ [site] }

/-- Gives up a doc block that waits. -/
def dropDoc (why : Discard) (b : State) : Outcome State := do
  match b.pending.doc with
  | some doc =>
    Outcome.note (.discarded doc.line why)
    return { b with pending.doc := none }
  | none => return b

/-- Adds a declaration, unless it has no name. -/
def add (b : State) (d : Declaration) : Outcome State := do
  if d.name.isEmpty then
    Outcome.note (.anonymous d.line d.kind)
    return b
  else
    let members ← Declaration.mergeInto b.members d
    return { b with members }

def addAll (b : State) (ds : List Declaration) : Outcome State := ds.foldlM add b

end State

/-- The scope's state once the one opened inside it holds `found`. -/
def Frame.resume (f : Frame) (found : Contents) : Outcome State := do
  match f with
  | .transparent b =>
    let members ← found.declarations.foldlM Declaration.mergeInto b.members
    return { b with members, injects := b.injects ++ found.injects }
  | .memberOf b own =>
    ({ b with injects := b.injects ++ found.injects } : State).add ⟨own, found.declarations⟩

/-- The contents of a scope that ends. A macro may not be left waiting. -/
def finish (s : Scope) (b : State) : Outcome Contents := do
  match b.pending.reflection with
  | some r =>
    Outcome.fail r.line (.orphaned r.macroName (if s.braced then .endOfBody else .endOfInput))
  | none =>
    let b ← b.dropDoc .nothingFollows
    return ⟨b.members, b.injects⟩

/-! ### Macros -/

/-- The macros that mark a declaration, with the kind they mark. -/
def reflectionMacros : List (String × Kind) :=
  [ ("UENUM", .enumType), ("USTRUCT", .structType), ("UCLASS", .classType),
    ("UINTERFACE", .classType), ("UFUNCTION", .function), ("UPROPERTY", .property) ]

def markedKind? (macroName : String) : Option Kind :=
  (reflectionMacros.find? (·.1 == macroName)).map (·.2)

/-- At least two characters, capitals, digits and underscores, and one capital. -/
def isMacroName (cs : List Char) : Bool :=
  2 ≤ cs.length && cs.all (fun c => c.isUpper || c.isDigit || c == '_') && cs.any Char.isUpper

/-- The tokens up to the parenthesis that closes one already read, and what follows
it; other pieces are passed over. `depth` counts further ones that are open. -/
def argumentTokens (depth : Nat) : List Piece → Option (List Token × List Piece)
  | [] => none
  | .token t :: ps =>
    match t.kind, depth with
    | .rparen, 0 => some ([], ps)
    | .rparen, depth + 1 => (argumentTokens depth ps).map fun (ts, rest) => (t :: ts, rest)
    | .lparen, depth => (argumentTokens (depth + 1) ps).map fun (ts, rest) => (t :: ts, rest)
    | .semi, _ | .lbrace, _ | .rbrace, _ => none
    | _, depth => (argumentTokens depth ps).map fun (ts, rest) => (t :: ts, rest)
  | .doc _ :: ps | .inject .. :: ps => argumentTokens depth ps

/-- A reflection macro from behind its name. -/
def readReflection (t : Token) (ps : List Piece) : Outcome (Reflection × List Piece) :=
  let flawed (flaw : MetadataFlaw) : Outcome (Reflection × List Piece) :=
    Outcome.fail t.line (.malformedMetadata t.text flaw)
  match ps with
  | p :: ps =>
    if p.hasKind .lparen then
      match argumentTokens 0 ps with
      | some (ts, rest) =>
        match Metadata.read ts with
        | .ok metadata => return (⟨t.text, metadata, t.line⟩, rest)
        | .error flaw => flawed flaw
      | none => flawed .unbalanced
    else flawed .noOpening
  | [] => flawed .noOpening

/-- The line of the parenthesis that closes one already read, and what follows it,
when only tokens that fit in an invocation stand between. -/
def callEnd? (depth : Nat) : List Piece → Option (Nat × List Piece)
  | .token t :: ps =>
    match t.kind, depth with
    | .rparen, 0 => some (t.line, ps)
    | .rparen, depth + 1 => callEnd? depth ps
    | .lparen, depth => callEnd? (depth + 1) ps
    | .semi, _ | .lbrace, _ | .rbrace, _ => none
    | _, depth => callEnd? depth ps
  | _ => none

/-- What follows a macro invocation that ends its line, from behind the macro's name. -/
def afterMacroCall? (t : Token) (ps : List Piece) : Option (List Piece) :=
  if isMacroName t.text.toList then
    let ended :=
      match ps with
      | p :: rest => if p.hasKind .lparen then callEnd? 0 rest else some (t.line, ps)
      | [] => some (t.line, ps)
    match ended with
    | some (line, rest) => if rest.head?.any (·.line ≤ line) then none else some rest
    | none => none
  else none

/-! ### Heads of bodies and templates -/

/-- The tokens of a template head and what follows it; other pieces are passed over.
`angle` counts angle brackets that are open. -/
def templateTokens (angle : Nat) : List Piece → List Token × List Piece
  | [] => ([], [])
  | .token t :: ps =>
    if t.kind = .greater && angle ≤ 1 then ([t], ps)
    else
      let angle :=
        match t.kind with
        | .less => angle + 1
        | .greater => angle - 1
        | _ => angle
      let more := templateTokens angle ps
      (t :: more.1, more.2)
  | .doc _ :: ps | .inject .. :: ps => templateTokens angle ps

/-- What the pieces behind `namespace` are. -/
inductive NamespaceHead where
  | body (name : String) (rest : List Piece)
  | alias (rest : List Piece)
  | nothing (rest : List Piece)

/-- The name up to a namespace's brace; `inline` is no part of it. -/
def namespaceHead (name : String) : List Piece → NamespaceHead
  | .token t :: ps =>
    match t.kind with
    | .lbrace => .body name ps
    | .ident => namespaceHead (if t.text == "inline" then name else name ++ t.text) ps
    | .scope => namespaceHead (name ++ "::") ps
    | _ => .alias (.token t :: ps)
  | ps => .nothing ps

end Scope

end AnnotatedHeader
