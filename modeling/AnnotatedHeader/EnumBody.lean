import AnnotatedHeader.Declaration.Merge
import AnnotatedHeader.Metadata.Parse
import AnnotatedHeader.Statement.Collect

/-! Enum bodies: the variants between an enum's braces.

Commas outside brackets separate entries. An entry is a name, a value behind `=`,
and metadata in a `UMETA` macro; an entry that does not start with a name is passed
over. -/
namespace AnnotatedHeader.EnumBody

def metaMacro : String := "UMETA"

/-- The depth of open brackets of any kind behind a token. -/
def bracketDepth (depth : Nat) (kind : TokenKind) : Nat :=
  match kind with
  | .lparen | .lbrace | .lbracket => depth + 1
  | .rparen | .rbrace | .rbracket => depth - 1
  | _ => depth

/-- The tokens of an entry, and what follows its comma or stands at the body's end.
Other pieces in it are passed over. -/
def entryTokens (depth : Nat) : List Piece → List Token × List Piece
  | [] => ([], [])
  | .token t :: ps =>
    if t.kind = .comma && depth == 0 then ([], ps)
    else if t.kind = .rbrace && depth == 0 then ([], .token t :: ps)
    else
      let more := entryTokens (bracketDepth depth t.kind) ps
      (t :: more.1, more.2)
  | .doc _ :: ps | .inject .. :: ps => entryTokens depth ps

theorem entryTokens_suffix (depth : Nat) (ps : List Piece) :
    (entryTokens depth ps).2 <:+ ps := by
  induction ps generalizing depth with
  | nil => exact List.suffix_refl _
  | cons p ps ih =>
    cases p with
    | token t =>
      rw [entryTokens]
      split
      · exact List.suffix_cons ..
      · split
        · exact List.suffix_refl _
        · exact (ih _).trans (List.suffix_cons ..)
    | doc b => exact (ih _).trans (List.suffix_cons ..)
    | inject proxy line => exact (ih _).trans (List.suffix_cons ..)

/-- The metadata macro of an entry, from its name on. -/
def reflection (t : Token) (args : List Token) : Except Fault Reflection :=
  let flawed (flaw : MetadataFlaw) : Fault := ⟨t.line, .malformedMetadata metaMacro flaw⟩
  match args with
  | opening :: rest =>
    if opening.kind = .lparen && rest.getLast?.any (·.kind == .rparen) then
      match Metadata.read rest.dropLast with
      | .ok metadata => .ok ⟨metaMacro, metadata, t.line⟩
      | .error flaw => .error (flawed flaw)
    else .error (flawed .noArguments)
  | [] => .error (flawed .noArguments)

/-- The value behind the `=` of an entry. -/
def value? (head : List Token) : Option String :=
  match head.dropWhile (·.kind != .equals) with
  | _ :: value => some (Token.join value)
  | [] => none

/-- The variant that an entry's tokens declare. -/
def variant (path : String) (doc : Option DocBlock) (ts : List Token) :
    Except Fault (Option Declaration) := do
  match ts with
  | name :: _ =>
    if name.kind = .ident then
      let head := ts.takeWhile (!·.isIdent metaMacro)
      let reflection ← match ts.dropWhile (!·.isIdent metaMacro) with
        | t :: args => (reflection t args).map some
        | [] => pure none
      return some
        { name := name.text
          path := QualifiedPath.join path name.text
          line := name.line
          visibility := .everyone
          template := none
          reflection
          signature := Token.join head
          doc
          item := .variant (value? head)
          synthetic := false
          members := [] }
    else return none
  | [] => return none

/-- `members` with the variant of one more entry. -/
def addEntry (path : String) (members : List Declaration) (doc : Option DocBlock)
    (ts : List Token) : Outcome (List Declaration) := do
  match ← Outcome.ofExcept (variant path doc ts) with
  | some member => Declaration.mergeInto members member
  | none =>
    Outcome.note (.skippedVariant (Token.join ts))
    return members

/-- The variants up to the body's closing brace, and the pieces behind it. `members`
and `doc` are the variants and the doc block met before. -/
def read (path : String) (members : List Declaration) (doc : Option DocBlock) :
    List Piece → Outcome (List Declaration × List Piece)
  | [] => do
    Outcome.note (.openBody path)
    return (members, [])
  | .doc b :: ps => read path members (some b) ps
  | .inject proxy line :: _ => Outcome.fail line (.misplacedInject proxy)
  | .token t :: ps =>
    match t.kind with
    | .rbrace => return (members, ps)
    | .comma => read path members doc ps
    | _ => do
      let more := entryTokens (bracketDepth 0 t.kind) ps
      let members ← addEntry path members doc (t :: more.1)
      read path members none more.2
termination_by ps => ps.length
decreasing_by
  · simp
  · simp
  · have := (entryTokens_suffix (bracketDepth 0 t.kind) ps).length_le
    rw [List.length_cons]
    omega

theorem read_suffix {path : String} {members found : List Declaration} {doc : Option DocBlock}
    {ps rest : List Piece} (h : (read path members doc ps).result = .ok (found, rest)) :
    rest <:+ ps := by
  fun_induction read path members doc ps with
  | case1 members doc =>
    cases h
    exact List.suffix_refl _
  | case2 members doc b ps ih => exact (ih h).trans (List.suffix_cons ..)
  | case3 => cases h
  | case4 members doc t ps =>
    cases h
    exact List.suffix_cons ..
  | case5 members doc t ps _ ih => exact (ih h).trans (List.suffix_cons ..)
  | case6 members doc t ps more _ _ ih =>
    rw [Outcome.result_bind] at h
    cases hm : (addEntry path members doc (t :: more.1)).result with
    | error e =>
      rw [hm] at h
      cases h
    | ok ms =>
      rw [hm] at h
      exact (ih ms h).trans ((entryTokens_suffix _ ps).trans (List.suffix_cons ..))

end AnnotatedHeader.EnumBody
