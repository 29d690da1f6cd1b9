import AnnotatedHeader.Declaration.Export

/-! Documents: the documentation of one header. -/
namespace AnnotatedHeader

structure Document where
  file : String
  declarations : List Declaration
  /-- The text of each snippet, by name. -/
  snippets : List (String × String)
  deriving Repr

namespace Document

/-- Every declaration, in depth-first order. -/
def walk (d : Document) : List Declaration := Declaration.walkAll d.declarations

/-- The first declaration at a path. -/
def find? (d : Document) (path : String) : Option Declaration := d.walk.find? (·.path == path)

/-- The part that the settings keep. -/
def exported (s : Settings) (d : Document) : Document :=
  { d with declarations := Declaration.ordered s (Declaration.exportedAll s false d.declarations) }

end Document

end AnnotatedHeader
