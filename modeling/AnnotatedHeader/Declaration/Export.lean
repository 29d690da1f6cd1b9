import AnnotatedHeader.Declaration

/-! Exporting: the part of a tree that the settings keep.

A variant goes with its enum. Any other declaration must be visible enough and
documented, or be a record that has something left in it. -/
namespace AnnotatedHeader.Declaration

/-- Siblings by name; those of one name keep their order. -/
def byName (ds : List Declaration) : List Declaration := ds.mergeSort fun a b => a.name ≤ b.name

/-- In the order that the settings ask for. -/
def ordered (s : Settings) (ds : List Declaration) : List Declaration :=
  if s.sortByName then byName ds else ds

/-- Whether a declaration stays whose members left are `members`. -/
def isKept (s : Settings) (insideEnum : Bool) (own : Declared) (members : List Declaration) :
    Bool :=
  let documented := s.showAll || own.doc.isSome
  match own.item.kind with
  | .variant => insideEnum
  | .structType | .classType => (documented || !members.isEmpty) && own.visibility.canExport s
  | .enumType | .function | .property => documented && own.visibility.canExport s

mutual

/-- What is left of a declaration; `insideEnum` says whether it stands in an enum. -/
def exported? (s : Settings) (insideEnum : Bool) : Declaration → Option Declaration
  | ⟨own, members⟩ =>
    let left := exportedAll s (own.item.kind == .enumType) members
    if isKept s insideEnum own left then some ⟨own, ordered s left⟩ else none

def exportedAll (s : Settings) (insideEnum : Bool) : List Declaration → List Declaration
  | [] => []
  | d :: ds =>
    match d.exported? s insideEnum with
    | some kept => kept :: exportedAll s insideEnum ds
    | none => exportedAll s insideEnum ds

end

end AnnotatedHeader.Declaration
