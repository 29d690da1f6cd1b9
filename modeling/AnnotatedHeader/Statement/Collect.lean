import AnnotatedHeader.Outcome
import AnnotatedHeader.Piece
import AnnotatedHeader.Statement
import AnnotatedHeader.Statement.Nesting

/-! Collecting a statement from the pieces of a scope.

`Statement.collect` stops behind a semicolon or a body's `{`, or at the brace that
ends the scope. What it leaves is always a suffix of what it read
(`collect_suffix`), and a proper one unless it stands at that brace
(`collect_suffix_of_token`). `skipBody` passes over a function's body. -/
namespace AnnotatedHeader

/-- The depth of open parentheses and brackets behind a token. -/
def parenDepth (depth : Nat) (kind : TokenKind) : Nat :=
  match kind with
  | .lparen | .lbracket => depth + 1
  | .rparen | .rbracket => depth - 1
  | _ => depth

/-- The depth of open braces behind a token. -/
def braceDepth (depth : Nat) (kind : TokenKind) : Nat :=
  match kind with
  | .lbrace => depth + 1
  | .rbrace => depth - 1
  | _ => depth

namespace Statement

def push (s : Statement) (t : Token) : Statement := { s with tokens := s.tokens ++ [t] }

def pushDoc (s : Statement) (b : DocBlock) : Statement :=
  { s with paramDocs := s.paramDocs ++ [(s.tokens.length, b)] }

/-- What a token means for a statement. -/
inductive Step where
  /-- The statement ends and the token with it. -/
  | ends
  /-- The statement ends before the token. -/
  | stops
  /-- The token opens a body. -/
  | opensBody
  | goesOn
  deriving DecidableEq, Repr

/-- `depth` counts open parentheses and brackets, `braces` those of an initializer. -/
def step (depth braces : Nat) (s : Statement) (kind : TokenKind) : Step :=
  if depth = 0 && braces = 0 then
    match kind with
    | .semi => .ends
    | .rbrace => .stops
    | .lbrace => if braceRole s.tokens = .body then .opensBody else .goesOn
    | _ => .goesOn
  else .goesOn

/-- The depths behind a token that belongs to the statement. Inside an initializer
only braces count, and inside parentheses braces do not. -/
def depthsAfter (depth braces : Nat) (kind : TokenKind) : Nat × Nat :=
  if braces = 0 && (depth != 0 || kind != .lbrace) then (parenDepth depth kind, 0)
  else (depth, braceDepth braces kind)

/-- The statement that the pieces complete, and the pieces behind it. -/
def collect (depth braces : Nat) (s : Statement) :
    List Piece → Outcome (Statement × List Piece)
  | [] => do
    if braces ≠ 0 then Outcome.note .openInitializer
    return (s, [])
  | .inject proxy line :: _ => Outcome.fail line (.misplacedInject proxy)
  | .doc b :: ps =>
    if braces ≠ 0 then collect depth braces s ps
    else if depth ≠ 0 then collect depth braces (s.pushDoc b) ps
    else do
      Outcome.note (.discarded b.line .insideStatement)
      collect depth braces s ps
  | .token t :: ps =>
    match step depth braces s t.kind with
    | .ends => return (s, ps)
    | .stops => return (s, .token t :: ps)
    | .opensBody => return ({ s with hasBody := true }, ps)
    | .goesOn =>
      let depths := depthsAfter depth braces t.kind
      collect depths.1 depths.2 (s.push t) ps

/-- The statement that starts the pieces. -/
def read (ps : List Piece) : Outcome (Statement × List Piece) :=
  collect 0 0 ⟨[], [], false, (ps.head?.map (·.line)).getD 0⟩ ps

theorem collect_suffix {depth braces : Nat} {s s' : Statement} {ps rest : List Piece}
    (h : (collect depth braces s ps).result = .ok (s', rest)) : rest <:+ ps := by
  induction ps generalizing depth braces s with
  | nil =>
    rw [collect] at h
    split at h <;> cases h <;> exact List.suffix_refl _
  | cons p ps ih =>
    cases p with
    | inject proxy line => cases h
    | doc b =>
      rw [collect] at h
      refine List.IsSuffix.trans ?_ (List.suffix_cons _ ps)
      split at h
      · exact ih h
      · split at h
        · exact ih h
        · exact ih h
    | token t =>
      rw [collect] at h
      split at h
      · cases h
        exact List.suffix_cons ..
      · cases h
        exact List.suffix_refl _
      · cases h
        exact List.suffix_cons ..
      · exact (ih h).trans (List.suffix_cons ..)

/-- Only the brace that ends the scope is left standing. -/
theorem collect_suffix_of_token {depth braces : Nat} {s s' : Statement} {t : Token}
    {ps rest : List Piece} (ht : t.kind ≠ .rbrace)
    (h : (collect depth braces s (.token t :: ps)).result = .ok (s', rest)) : rest <:+ ps := by
  rw [collect] at h
  split at h
  · cases h
    exact List.suffix_refl _
  · rename_i hs
    unfold step at hs
    split at hs
    · split at hs
      · cases hs
      · exact absurd (by assumption) ht
      · split at hs <;> cases hs
      · cases hs
    · cases hs
  · cases h
    exact List.suffix_refl _
  · exact collect_suffix h

theorem read_suffix {ps rest : List Piece} {s : Statement}
    (h : (read ps).result = .ok (s, rest)) : rest <:+ ps := collect_suffix h

theorem read_suffix_of_token {t : Token} {ps rest : List Piece} {s : Statement}
    (ht : t.kind ≠ .rbrace) (h : (read (.token t :: ps)).result = .ok (s, rest)) : rest <:+ ps :=
  collect_suffix_of_token ht h

end Statement

/-! ### Function bodies -/

/-- The pieces behind a body whose `{` has been read; `depth` counts further braces
that are open. -/
def skipBody (depth : Nat) : List Piece → Outcome (List Piece)
  | [] => do
    Outcome.note .openSkippedBody
    return []
  | .inject proxy line :: _ => Outcome.fail line (.misplacedInject proxy)
  | .doc _ :: ps => skipBody depth ps
  | .token t :: ps =>
    match t.kind, depth with
    | .rbrace, 0 => return ps
    | .rbrace, depth + 1 => skipBody depth ps
    | .lbrace, depth => skipBody (depth + 1) ps
    | _, depth => skipBody depth ps

theorem skipBody_suffix {depth : Nat} {ps rest : List Piece}
    (h : (skipBody depth ps).result = .ok rest) : rest <:+ ps := by
  fun_induction skipBody depth ps with
  | case1 =>
    cases h
    exact List.suffix_refl _
  | case2 => cases h
  | case3 depth b ps ih => exact (ih h).trans (List.suffix_cons ..)
  | case4 t ps =>
    cases h
    exact List.suffix_cons ..
  | case5 t ps depth _ ih => exact (ih h).trans (List.suffix_cons ..)
  | case6 depth t ps _ ih => exact (ih h).trans (List.suffix_cons ..)
  | case7 depth t ps _ _ _ ih => exact (ih h).trans (List.suffix_cons ..)

/-- The pieces behind a statement whose tokens have been read. -/
def Statement.skipBodyOf (s : Statement) (rest : List Piece) : Outcome (List Piece) :=
  if s.hasBody then skipBody 0 rest else return rest

theorem Statement.skipBodyOf_suffix {s : Statement} {ps rest : List Piece}
    (h : (s.skipBodyOf ps).result = .ok rest) : rest <:+ ps := by
  unfold skipBodyOf at h
  split at h
  · exact skipBody_suffix h
  · cases h
    exact List.suffix_refl _

end AnnotatedHeader
