import AnnotatedHeader.Proofs.Declaration.ByName
import AnnotatedHeader.Proofs.Declaration.Every

/-! What an export leaves of trees.

Whether a declaration stays hangs on itself and on whether anything below it does
(`isKept_iff`), so a second export that asks for no more finds all that it would have found
at first (`exportedAll_exportedAll`). The order asked for decides nothing: an export in the
order of names is one in source order, sorted (`exportedAll_of_sortByName`), and whether the
sorting comes first or last is the same (`exportedAll_sortedAll`). -/
namespace AnnotatedHeader

/-- A struct or a class. -/
def Kind.IsRecord (kind : Kind) : Prop := kind = .structType ∨ kind = .classType

instance (kind : Kind) : Decidable kind.IsRecord :=
  inferInstanceAs (Decidable (kind = .structType ∨ kind = .classType))

/-- The same, in source order. -/
def Settings.unsorted (s : Settings) : Settings := { s with sortByName := false }

/-- Undocumented and hidden declarations too, in source order. -/
def Settings.everything : Settings :=
  { showAll := true, documentProtected := true, documentPrivate := true, sortByName := false }

/-- Whatever the first asks to keep the second asks to keep, too. -/
structure Settings.Within (s t : Settings) : Prop where
  showAll : s.showAll = true → t.showAll = true
  documentProtected : s.documentProtected = true → t.documentProtected = true
  documentPrivate : s.documentPrivate = true → t.documentPrivate = true

theorem Settings.Within.refl (s : Settings) : s.Within s := ⟨id, id, id⟩

theorem Settings.Within.canExport {s t : Settings} (h : s.Within t) {v : Visibility}
    (hv : v.canExport s = true) : v.canExport t = true := by
  cases v with
  | everyone => rfl
  | derived => exact h.documentProtected hv
  | self => exact h.documentPrivate hv

namespace Declaration
variable {s t : Settings} {insideEnum : Bool} {own : Declared} {left left' : List Declaration}

/-! ### One declaration -/

theorem isKept_of_variant (h : own.item.kind = .variant) :
    isKept s insideEnum own left = insideEnum := by
  unfold isKept
  rw [h]

/-- What is no variant stays if it can be seen and is asked for, itself or by what is left
in it. -/
theorem isKept_iff (h : own.item.kind ≠ .variant) :
    isKept s insideEnum own left = true ↔ own.visibility.canExport s = true ∧
      (s.showAll = true ∨ own.doc.isSome = true ∨ own.item.kind.IsRecord ∧ left ≠ []) := by
  unfold isKept Kind.IsRecord
  cases hkind : own.item.kind with
  | variant => exact absurd hkind h
  | structType | classType =>
    simp [and_comm, or_assoc]
  | enumType | function | property =>
    simp [and_comm]

theorem isKept_congr (h : left = [] ↔ left' = []) :
    isKept s insideEnum own left = isKept s insideEnum own left' := by
  by_cases hkind : own.item.kind = .variant
  · rw [isKept_of_variant hkind, isKept_of_variant hkind]
  · rw [Bool.eq_iff_iff, isKept_iff hkind, isKept_iff hkind, ne_eq, h]

theorem isKept_of_within (h : s.Within t) (hleft : left' = [] → left = [])
    (kept : isKept s insideEnum own left = true) : isKept t insideEnum own left' = true := by
  by_cases hkind : own.item.kind = .variant
  · rwa [isKept_of_variant hkind] at kept ⊢
  · rw [isKept_iff hkind] at kept ⊢
    obtain ⟨hvisible, hwanted⟩ := kept
    exact ⟨h.canExport hvisible, hwanted.imp h.showAll (Or.imp_right (And.imp_right (mt hleft)))⟩

/-- What is left of a declaration's members. -/
abbrev leftOf (s : Settings) (own : Declared) (members : List Declaration) : List Declaration :=
  exportedAll s (own.item.kind == .enumType) members

theorem exported?_eq (own : Declared) (members : List Declaration) :
    exported? s insideEnum ⟨own, members⟩ =
      if isKept s insideEnum own (leftOf s own members) then some ⟨own, ordered s (leftOf s own members)⟩
      else none := by
  rw [exported?]

/-- What stays of a declaration says all that it said. -/
theorem toDeclared_of_exported? {d e : Declaration} (h : exported? s insideEnum d = some e) :
    e.toDeclared = d.toDeclared := by
  obtain ⟨own, members⟩ := d
  rw [exported?_eq] at h
  split at h <;> cases h
  rfl

theorem exportedAll_eq_filterMap (ds : List Declaration) :
    exportedAll s insideEnum ds = ds.filterMap (exported? s insideEnum) := by
  induction ds with
  | nil => rfl
  | cons d ds ih =>
    rw [exportedAll, List.filterMap_cons]
    cases exported? s insideEnum d with
    | none => exact ih
    | some e => exact congrArg _ ih

theorem isKept_unsorted : isKept s.unsorted insideEnum own left = isKept s insideEnum own left := rfl

theorem exported?_unsorted (own : Declared) (members : List Declaration) :
    exported? s.unsorted insideEnum ⟨own, members⟩ =
      if isKept s insideEnum own (leftOf s.unsorted own members) then
        some ⟨own, leftOf s.unsorted own members⟩
      else none := by
  rw [exported?_eq, isKept_unsorted]
  rfl

/-! ### Exporting again -/

theorem exportedAll_of_each {ds : List Declaration}
    (each : ∀ d ∈ ds, (exported? t insideEnum d).bind (exported? s insideEnum) =
      exported? s insideEnum d) :
    exportedAll s insideEnum (exportedAll t insideEnum ds) = exportedAll s insideEnum ds := by
  simp only [exportedAll_eq_filterMap, List.filterMap_filterMap]
  exact List.filterMap_congr each

theorem exported?_of_exported? (h : s.Within t) (d : Declaration) :
    (exported? t.unsorted insideEnum d).bind (exported? s.unsorted insideEnum) =
      exported? s.unsorted insideEnum d := by
  induction d using Declaration.induction generalizing insideEnum with
  | step own members ih =>
    have hall : leftOf s.unsorted own (leftOf t.unsorted own members) = leftOf s.unsorted own members :=
      exportedAll_of_each fun m hm => ih m hm
    rw [exported?_unsorted, exported?_unsorted]
    split
    · rw [Option.bind_some, exported?_unsorted, hall]
    · rename_i hdropped
      rw [Option.bind_none, if_neg]
      refine fun hkept => hdropped (isKept_of_within h (fun hempty => ?_) hkept)
      rw [← hall, hempty]
      rfl

/-- **Exporting less of an export** gives what exporting less gives. -/
theorem exportedAll_exportedAll (h : s.Within t) (ds : List Declaration) :
    exportedAll s.unsorted insideEnum (exportedAll t.unsorted insideEnum ds) =
      exportedAll s.unsorted insideEnum ds :=
  exportedAll_of_each fun d _ => exported?_of_exported? h d

/-! ### The order of names -/

theorem exportedAll_of_each_sorted {ds : List Declaration}
    (each : ∀ d ∈ ds, exported? s insideEnum d = (exported? t insideEnum d).map sorted) :
    exportedAll s insideEnum ds = (exportedAll t insideEnum ds).map sorted := by
  simp only [exportedAll_eq_filterMap, List.map_filterMap]
  exact List.filterMap_congr each

theorem exported?_of_sortByName (h : s.sortByName = true) (d : Declaration) :
    exported? s insideEnum d = (exported? s.unsorted insideEnum d).map sorted := by
  induction d using Declaration.induction generalizing insideEnum with
  | step own members ih =>
    have hall : leftOf s own members = (leftOf s.unsorted own members).map sorted :=
      exportedAll_of_each_sorted fun m hm => ih m hm
    have hordered : ordered s (leftOf s own members) = sortedAll (leftOf s.unsorted own members) := by
      rw [ordered, if_pos h, hall, sortedAll, sortedEach_eq_map]
    rw [exported?_eq, exported?_unsorted, hordered, hall, isKept_congr List.map_eq_nil_iff]
    split <;> rfl

/-- **An export in the order of names is one in source order, sorted.** -/
theorem exportedAll_of_sortByName (h : s.sortByName = true) (ds : List Declaration) :
    exportedAll s insideEnum ds = (exportedAll s.unsorted insideEnum ds).map sorted :=
  exportedAll_of_each_sorted fun d _ => exported?_of_sortByName h d

theorem exportedAll_sortedAll_of_each {ds : List Declaration}
    (each : ∀ d ∈ ds, exported? s insideEnum d.sorted = (exported? s insideEnum d).map sorted) :
    exportedAll s insideEnum (sortedAll ds) = sortedAll (exportedAll s insideEnum ds) := by
  have hname : ∀ d e, exported? s insideEnum d = some e → e.name = d.name := fun d e he =>
    congrArg Declared.name (toDeclared_of_exported? he)
  simp only [exportedAll_eq_filterMap, sortedAll, sortedEach_eq_map]
  rw [← byName_filterMap hname, List.filterMap_map, List.map_filterMap]
  exact congrArg byName (List.filterMap_congr each)

theorem exported?_sorted (d : Declaration) :
    exported? s.unsorted insideEnum d.sorted = (exported? s.unsorted insideEnum d).map sorted := by
  induction d using Declaration.induction generalizing insideEnum with
  | step own members ih =>
    have hall : leftOf s.unsorted own (sortedAll members) = sortedAll (leftOf s.unsorted own members) :=
      exportedAll_sortedAll_of_each fun m hm => ih m hm
    rw [sorted_eq, exported?_unsorted, exported?_unsorted, hall, isKept_congr sortedAll_eq_nil_iff]
    split <;> rfl

/-- **Sorting leaves an export what it is.** -/
theorem exportedAll_sortedAll (ds : List Declaration) :
    exportedAll s.unsorted insideEnum (sortedAll ds) =
      sortedAll (exportedAll s.unsorted insideEnum ds) :=
  exportedAll_sortedAll_of_each fun d _ => exported?_sorted d

/-! ### Everything -/

/-- Variants among the members of the declaration are those of an enum. -/
def HoldsVariants (d : Declaration) : Prop :=
  ∀ m ∈ d.members, m.kind = .variant → d.kind = .enumType

theorem exportedAll_everything_of_each {ds : List Declaration}
    (each : ∀ d ∈ ds, exported? .everything insideEnum d = some d) :
    exportedAll .everything insideEnum ds = ds := by
  rw [exportedAll_eq_filterMap, List.filterMap_congr each, List.filterMap_some]

/-- Where everything is asked for, only variants outside enums are lost. -/
theorem exported?_everything {d : Declaration} (h : ∀ m ∈ d.walk, m.HoldsVariants)
    (hd : d.kind = .variant → insideEnum = true) : exported? .everything insideEnum d = some d := by
  induction d using Declaration.induction generalizing insideEnum with
  | step own members ih =>
    obtain ⟨hown, hbelow⟩ := forall_walk_iff.1 h
    have hall : leftOf .everything own members = members :=
      exportedAll_everything_of_each fun m hm =>
        ih m hm (hbelow m hm) fun hvariant => beq_iff_eq.2 (hown m hm hvariant)
    have hkept : isKept .everything insideEnum own members = true := by
      by_cases hkind : own.item.kind = .variant
      · rw [isKept_of_variant hkind, hd hkind]
      · refine (isKept_iff hkind).2 ⟨?_, .inl rfl⟩
        cases own.visibility <;> rfl
    rw [exported?_eq, hall, if_pos hkept]
    rfl

end Declaration

end AnnotatedHeader
