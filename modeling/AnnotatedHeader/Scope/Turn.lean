import AnnotatedHeader.Scope

/-! Turns: reading one item of a scope.

Every turn consumes the piece it starts with: what it leaves is a suffix of the
pieces behind that one (`turn_suffix`). -/
namespace AnnotatedHeader.Scope

/-! ### Statements -/

/-- What a heading declares in this scope, with what has waited for it. -/
def declared (s : Scope) (visibility : Visibility) (line : Nat) (waiting : Pending) (h : Heading) :
    Declared :=
  { name := h.name
    path := QualifiedPath.join s.path h.name
    line
    visibility
    template := waiting.template
    reflection := waiting.reflection
    signature := h.signature
    doc := waiting.doc
    item := h.item
    synthetic := false }

/-- A macro may only mark a declaration of its kind. -/
def checkReflection (h : Heading) : Option Reflection → Outcome Unit
  | some r =>
    if markedKind? r.macroName = some h.item.kind then return ()
    else Outcome.fail r.line (.orphaned r.macroName (.declaration h.item.kind h.name))
  | none => return ()

/-- Passes over a statement that declares nothing, and with it what has waited for
a declaration. -/
def passOver (b : State) (stmt : Statement) (reason : SkipReason) (rest : List Piece) :
    Outcome Turn := do
  let text := Token.join stmt.tokens
  match b.pending.reflection with
  | some r => Outcome.fail r.line (.orphaned r.macroName (.statement text))
  | none =>
    Outcome.note (.skipped stmt.line (.statement reason text))
    let rest ← stmt.skipBodyOf rest
    let b ← b.dropDoc .nothingFollows
    return .continues { b with pending.template := none } rest

/-- Reads the body that follows a heading's statement. -/
def openBody (b : State) (own : Declared) (rest : List Piece) : Outcome Turn := do
  match own.item with
  | .record key _ => return .opens (ofRecord own.path own.name key) (.memberOf b own) rest
  | .enumeration _ =>
    let (members, rest) ← EnumBody.read own.path [] none rest
    let b ← b.add ⟨own, members⟩
    return .continues b rest
  | _ =>
    let rest ← skipBody 0 rest
    let b ← b.add ⟨own, []⟩
    return .continues b rest

/-- Reads a statement; what has waited goes to the first of its declarations. -/
def declare (s : Scope) (b : State) (ps : List Piece) : Outcome Turn := do
  let (stmt, rest) ← Statement.read ps
  match Head.classify stmt s.record with
  | .skip reason => passOver b stmt reason rest
  | .declares first others =>
    checkReflection first b.pending.reflection
    let own := s.declared b.visibility stmt.line b.pending first
    let b := { b with pending := {} }
    if stmt.hasBody then openBody b own rest
    else
      let more := others.map fun h => (⟨s.declared b.visibility stmt.line {} h, []⟩ : Declaration)
      let b ← b.addAll (⟨own, []⟩ :: more)
      return .continues b rest

/-! ### Words -/

/-- Statements that never declare anything. -/
def passedOver : List String := ["using", "typedef", "friend", "static_assert"]

/-- Reads a namespace from behind its keyword. -/
def readNamespace (s : Scope) (b : State) (ps : List Piece) : Outcome Turn := do
  let b ← b.dropDoc .onNamespace
  match namespaceHead "" ps with
  | .body name rest => return .opens (s.inNamespace name) (.transparent b) rest
  | .alias rest =>
    let (stmt, rest) ← Statement.read rest
    Outcome.note (.skipped stmt.line .namespaceAlias)
    return .continues b rest
  | .nothing rest => return .continues b rest

/-- Reads a reflection macro, which waits for a declaration. -/
def annotate (b : State) (t : Token) (ps : List Piece) : Outcome Turn := do
  match b.pending.reflection with
  | some r => Outcome.fail r.line (.orphaned r.macroName (.reflection t.text))
  | none =>
    let (r, rest) ← readReflection t ps
    return .continues { b with pending.reflection := some r } rest

def passOverKeyword (b : State) (ps : List Piece) : Outcome Turn := do
  let (stmt, rest) ← Statement.read ps
  Outcome.note (.skipped stmt.line (.keyword (Token.join stmt.tokens)))
  let rest ← stmt.skipBodyOf rest
  return .continues b rest

/-- What an identifier at the start of an item announces. -/
inductive Word where
  | label (visibility : Visibility)
  | template
  /-- In front of a namespace it means nothing. -/
  | inlined
  | namespace
  | linkage
  | reflection
  | passedOver
  | macroCall (rest : List Piece)
  | other

/-- Whether the `i`-th piece is a token of `kind`. -/
def nextIs (i : Nat) (kind : TokenKind) (ps : List Piece) : Bool := (ps[i]?).any (·.hasKind kind)

/-- The visibility that a label at `t` sets. -/
def label? (t : Token) (ps : List Piece) : Option Visibility :=
  if nextIs 0 .colon ps then Visibility.ofLabel? t.text else none

def startsNamespace : List Piece → Bool
  | .token t :: _ => t.isIdent "namespace"
  | _ => false

/-- What the identifier `t` means in front of the pieces `ps`. -/
def word (t : Token) (ps : List Piece) : Word :=
  match label? t ps with
  | some v => .label v
  | none =>
    if t.text == "template" && nextIs 0 .less ps then .template
    else if t.text == "inline" && startsNamespace ps then .inlined
    else if t.text == "namespace" then .namespace
    else if t.text == "extern" && nextIs 0 .string ps && nextIs 1 .lbrace ps then .linkage
    else if (markedKind? t.text).isSome then .reflection
    else if passedOver.contains t.text then .passedOver
    else
      match afterMacroCall? t ps with
      | some rest => .macroCall rest
      | none => .other

/-- Reads an item that starts with the identifier `t`. -/
def readWord (s : Scope) (b : State) (t : Token) (ps : List Piece) : Outcome Turn :=
  match word t ps with
  | .label v => return .continues { b with visibility := v } (ps.drop 1)
  | .template =>
    let found := templateTokens 0 ps
    return .continues { b with pending.template := some (Token.join (t :: found.1)) } found.2
  | .inlined => return .continues b ps
  | .namespace => readNamespace s b ps
  | .linkage => return .opens { s with braced := true } (.transparent b) (ps.drop 2)
  | .reflection => annotate b t ps
  | .passedOver => passOverKeyword b (.token t :: ps)
  | .macroCall rest => do
    Outcome.note (.skipped t.line (.macroCall t.text))
    return .continues b rest
  | .other => declare s b (.token t :: ps)

/-! ### Items -/

/-- Reads the item that starts with the piece `p`. -/
def turn (s : Scope) (b : State) (p : Piece) (ps : List Piece) : Outcome Turn :=
  match p with
  | .doc block => do
    let b ← b.dropDoc .followedByBlock
    return .continues { b with pending.doc := some block } ps
  | .inject proxy line =>
    if s.record.isNone then Outcome.fail line (.misplacedInject proxy)
    else return .continues (b.addInject ⟨proxy, s.path, line⟩) ps
  | .token t =>
    match t.kind with
    | .rbrace =>
      if s.braced then return .closes ps
      else do
        Outcome.note (.strayBrace t.line)
        return .continues b ps
    | .semi => return .continues b ps
    | .ident => readWord s b t ps
    | _ => declare s b (.token t :: ps)

end AnnotatedHeader.Scope
