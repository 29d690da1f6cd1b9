import AnnotatedHeader.Declaration

/-! Traversing the doc blocks of a tree.

`mapDocs` visits a declaration's own block, then those of its parameters, then
those of its members, each with the path of the declaration it documents. -/
namespace AnnotatedHeader

universe u

def Param.mapDoc {m : Type → Type u} [Monad m] (f : DocBlock → m DocBlock) (p : Param) :
    m Param := do
  return { p with doc := ← p.doc.mapM f }

def Item.mapDocs {m : Type → Type u} [Monad m] (f : DocBlock → m DocBlock) : Item → m Item
  | .function shape => do return .function { shape with params := ← shape.params.mapM (·.mapDoc f) }
  | item => pure item

def Declared.mapDocs {m : Type → Type u} [Monad m] (f : DocBlock → String → m DocBlock)
    (d : Declared) : m Declared := do
  let doc ← d.doc.mapM (f · d.path)
  let item ← d.item.mapDocs (f · d.path)
  return { d with doc, item }

namespace Declaration

mutual

def mapDocs {m : Type → Type u} [Monad m] (f : DocBlock → String → m DocBlock) :
    Declaration → m Declaration
  | ⟨own, members⟩ => do
    let own ← own.mapDocs f
    let members ← mapDocsAll f members
    return ⟨own, members⟩

def mapDocsAll {m : Type → Type u} [Monad m] (f : DocBlock → String → m DocBlock) :
    List Declaration → m (List Declaration)
  | [] => return []
  | d :: ds => do
    let d ← d.mapDocs f
    let ds ← mapDocsAll f ds
    return d :: ds

end

end Declaration

/-! ### The blocks that are visited -/

def Item.docs : Item → List DocBlock
  | .function shape => shape.params.filterMap (·.doc)
  | _ => []

/-- A declaration's own blocks, each with its path. -/
def Declared.docs (d : Declared) : List (DocBlock × String) :=
  (d.doc.toList ++ d.item.docs).map (·, d.path)

/-- The blocks of a tree with their paths, in the order of a traversal. -/
def Declaration.docs (d : Declaration) : List (DocBlock × String) :=
  d.walk.flatMap fun m => m.toDeclared.docs

end AnnotatedHeader
