import AnnotatedHeader.Declaration
import AnnotatedHeader.Outcome

/-! Merging repeated declarations.

Two declarations are of one entity when path, kind and parameter types agree. The
later one wins, unless only the earlier one has a body; the winner takes over
what it lacks itself. It keeps the place of the entity's first declaration. -/
namespace AnnotatedHeader.Declaration

def sameEntity (a b : Declaration) : Bool :=
  a.path == b.path && a.kind == b.kind && a.item.paramTypes == b.item.paramTypes

/-- The winner with the loser's doc block, macro and template where it has none. -/
def inherit (winner loser : Declaration) : Declaration :=
  { winner with
    doc := winner.doc <|> loser.doc
    reflection := winner.reflection <|> loser.reflection
    template := winner.template <|> loser.template }

/-- Whether the earlier declaration stays. -/
def outlasts (earlier later : Declaration) : Bool :=
  earlier.item.hasBody && !later.item.hasBody

/-- The one declaration that two of one entity make. -/
def combine (earlier later : Declaration) : Declaration :=
  if outlasts earlier later then inherit earlier later else inherit later earlier

def mergeNotice (earlier later : Declaration) : Notice :=
  if outlasts earlier later then .definitionKept earlier.path earlier.line later.line
  else .replaced later.path later.line earlier.line

/-- The declarations with one more, combined with the first of its entity. -/
def merged (ds : List Declaration) (later : Declaration) : List Declaration :=
  match ds with
  | [] => [later]
  | d :: ds =>
    if sameEntity d later then combine d later :: ds else d :: merged ds later

def mergeInto (ds : List Declaration) (later : Declaration) : Outcome (List Declaration) :=
  ⟨((ds.find? (sameEntity · later)).map (mergeNotice · later)).toList, .ok (merged ds later)⟩

@[simp] theorem result_mergeInto (ds : List Declaration) (later : Declaration) :
    (mergeInto ds later).result = .ok (merged ds later) := rfl

theorem result_foldlM_mergeInto (ds members : List Declaration) :
    (ds.foldlM mergeInto members).result = .ok (ds.foldl merged members) := by
  induction ds generalizing members with
  | nil => rfl
  | cons d ds ih =>
    rw [List.foldlM_cons, Outcome.result_bind, result_mergeInto]
    exact ih _

end AnnotatedHeader.Declaration
