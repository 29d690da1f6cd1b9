import AnnotatedHeader.Scope.Progress

/-! Reading a scope to its end.

`Scope.readFrom` takes turns until the scope closes or the pieces end; a scope opened
inside it is read the same way first. -/
namespace AnnotatedHeader

namespace Scope

/-- What a scope holds in whose reading `b` has been reached, and the pieces behind
its end. -/
def readFrom (s : Scope) (b : State) :
    (ps : List Piece) → Outcome (Contents × { rest : List Piece // rest <:+ ps })
  | [] => do
    if s.braced then Outcome.note (.openBody s.path)
    let found ← s.finish b
    return (found, ⟨[], List.suffix_refl _⟩)
  | p :: ps => do
    match ← (turn s b p ps).attach (fun t => t.rest <:+ ps) fun _ => turn_suffix with
    | ⟨.closes rest, h⟩ =>
      let found ← s.finish b
      return (found, ⟨rest, h.trans (List.suffix_cons ..)⟩)
    | ⟨.continues b rest, h⟩ =>
      let (found, ⟨rest', h'⟩) ← readFrom s b rest
      return (found, ⟨rest', h'.trans (h.trans (List.suffix_cons ..))⟩)
    | ⟨.opens inner frame rest, h⟩ =>
      let (within, ⟨rest', h'⟩) ← readFrom inner inner.start rest
      let b ← frame.resume within
      let (found, ⟨rest'', h''⟩) ← readFrom s b rest'
      return (found, ⟨rest'', h''.trans (h'.trans (h.trans (List.suffix_cons ..)))⟩)
termination_by ps => ps.length
decreasing_by
  · exact Nat.lt_succ_of_le h.length_le
  · exact Nat.lt_succ_of_le h.length_le
  · exact Nat.lt_succ_of_le (h'.trans h).length_le

/-- What the pieces declare in a scope that they do not leave. -/
def read (s : Scope) (ps : List Piece) : Outcome Contents := do
  let (found, _) ← readFrom s s.start ps
  return found

end Scope

/-! ### Headers and fragments -/

/-- What a header's lines declare. -/
def Scope.Contents.ofLines (lines : List SourceLine) (blocks : List CommentBlock) :
    Outcome Scope.Contents := do
  Outcome.noteAll (Piece.noticesOf lines blocks)
  Scope.file.read (Piece.ofLines lines blocks)

/-- A record's body that holds nothing but code from elsewhere, all of it public. -/
def Scope.ofFragment (owner : String) : Scope :=
  ⟨owner, some (QualifiedPath.lastSegment owner), .everyone, false⟩

/-- What code declares that stands in the body of the record at `owner`. -/
def Declaration.ofFragment (text : String) (firstLine : Nat) (owner : String) :
    Outcome (List Declaration) := do
  Outcome.noteAll (Token.noticesOf text)
  let found ← (Scope.ofFragment owner).read ((Token.tokenize text firstLine).map .token)
  return found.declarations

end AnnotatedHeader
