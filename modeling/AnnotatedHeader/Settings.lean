/-! Settings: which declarations an export keeps, and in which order. -/
namespace AnnotatedHeader

structure Settings where
  /-- Undocumented declarations are kept too. -/
  showAll : Bool := false
  documentProtected : Bool := false
  documentPrivate : Bool := false
  /-- Siblings stand by name and not in source order. -/
  sortByName : Bool := false
  deriving DecidableEq, Repr, Inhabited

/-- What either of the two asks for. -/
def Settings.union (a b : Settings) : Settings :=
  { showAll := a.showAll || b.showAll
    documentProtected := a.documentProtected || b.documentProtected
    documentPrivate := a.documentPrivate || b.documentPrivate
    sortByName := a.sortByName || b.sortByName }

end AnnotatedHeader
