import AnnotatedHeader.Outcome
import AnnotatedHeader.SymbolTable
import AnnotatedHeader.Text.Lead

/-! Resolution: which declaration a cross-reference means.

`Self` stands for the documented declaration and is never looked up elsewhere. Any
other path is looked up as it is written, then under the documented declaration and
under what encloses it, innermost first, and last as the bare name of exactly one
declaration. -/
namespace AnnotatedHeader

inductive Resolution where
  | found (target : String)
  | ambiguous (candidates : List String)
  | unresolved
  deriving DecidableEq, Repr

/-- A path and its ancestors, innermost first. -/
def QualifiedPath.enclosing (path : String) : List String :=
  if path.isEmpty then []
  else
    match _h : parent? path with
    | some parent => path :: enclosing parent
    | none => [path]
termination_by path.toList.length
decreasing_by exact length_of_parent? _h

namespace SymbolTable

/-- The path itself, if it is declared. -/
def exact (table : SymbolTable) (path : String) : Resolution :=
  if table.contains path then .found path else .unresolved

/-- The path that one starting with `Self` stands for. -/
def ofSelf? (path context : String) : Option String :=
  match Text.afterLead? "Self".toList path.toList with
  | some [] => some context
  | some rest =>
    (Text.afterLead? "::".toList rest).map fun tail => QualifiedPath.join context (.ofList tail)
  | none => none

/-- Resolves by the bare name of one declaration. -/
def resolveName (table : SymbolTable) (name : String) : Resolution :=
  match table.pathsNamed name with
  | [] => .unresolved
  | [path] => .found path
  | paths => .ambiguous paths

/-- The first path around `context` under which `path` is declared. -/
def resolveAround? (table : SymbolTable) (path context : String) : Option String :=
  ((QualifiedPath.enclosing context).map (QualifiedPath.join · path)).find? table.contains

/-- Resolves a path written in the docs of the declaration at `context`. -/
def resolve (table : SymbolTable) (path context : String) : Resolution :=
  match ofSelf? path context with
  | some target => table.exact target
  | none =>
    if table.contains path then .found path
    else
      match table.resolveAround? path context with
      | some target => .found target
      | none => if QualifiedPath.isQualified path then .unresolved else table.resolveName path

/-! ### Doc blocks -/

/-- What there is to say about a reference that means `target`. -/
def resolvedNotices (table : SymbolTable) (r : CrossReference) (target : String) : List Notice :=
  (if (table.get target).any (·.kind == r.kind) then []
    else [.otherKind r.line r.kind r.path target]) ++ [.resolved r.line r.path target]

/-- A reference that has a target keeps it. -/
def resolveReference (table : SymbolTable) (context : String) (r : CrossReference) :
    Outcome CrossReference :=
  if r.target.isSome then return r
  else
    match table.resolve r.path context with
    | .found target => do
      Outcome.noteAll (table.resolvedNotices r target)
      return { r with target := some target }
    | .ambiguous candidates => Outcome.fail r.line (.ambiguous r.path context candidates)
    | .unresolved => Outcome.fail r.line (.unresolved r.path context)

def resolveDoc (table : SymbolTable) (b : DocBlock) (context : String) : Outcome DocBlock := do
  return { b with references := ← b.references.mapM (table.resolveReference context) }

end SymbolTable

end AnnotatedHeader
