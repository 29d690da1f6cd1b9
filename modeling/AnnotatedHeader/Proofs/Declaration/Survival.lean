import AnnotatedHeader.Document
import AnnotatedHeader.Proofs.Declaration.Export
import AnnotatedHeader.Proofs.Declaration.Places

/-! Who survives an export.

Where variants are what enums hold, and nothing else, survival can be told of each place
alone: all nodes from the root down to it can be seen, and it is asked for, by its doc block
or, if it is a record, by that of a node in it which can be seen from it; a variant goes with
its enum (`Place.Survives`). What is left of a tree stands at these places (`Declaration.tells`). -/
namespace AnnotatedHeader

open Declaration (placesAll)

/-! ### Places that survive -/

/-- The place can be seen from the root of its forest. -/
def Place.Visible (s : Settings) (p : Place) : Prop :=
  p.node.visibility.canExport s = true ∧ ∀ a ∈ p.above, a.visibility.canExport s = true

/-- The place tells something about what it stands in. -/
def Place.Documents (s : Settings) (p : Place) : Prop :=
  p.node.kind ≠ .variant ∧ p.node.doc.isSome = true ∧ p.Visible s

/-- The settings ask for the declaration, or its doc block does, or one in a record. -/
def Declaration.Wanted (s : Settings) (d : Declaration) : Prop :=
  s.showAll = true ∨ d.doc.isSome = true ∨
    d.kind.IsRecord ∧ ∃ p ∈ placesAll [] d.members, p.Documents s

def Place.Stands (s : Settings) (p : Place) : Prop := p.Visible s ∧ p.node.Wanted s

/-- A variant survives with its enum, and anything else if it stands. -/
def Place.Survives (s : Settings) (p : Place) : Prop :=
  if p.node.kind = .variant then ∃ enum ∈ p.parent?, enum.Stands s else p.Stands s

instance (s : Settings) (p : Place) : Decidable (p.Visible s) :=
  inferInstanceAs (Decidable (_ ∧ _))

instance (s : Settings) (p : Place) : Decidable (p.Documents s) :=
  inferInstanceAs (Decidable (_ ∧ _))

instance (s : Settings) (d : Declaration) : Decidable (d.Wanted s) :=
  inferInstanceAs (Decidable (_ ∨ _))

instance (s : Settings) (p : Place) : Decidable (p.Stands s) :=
  inferInstanceAs (Decidable (_ ∧ _))

instance (s : Settings) (p : Place) : Decidable (p.Survives s) :=
  inferInstanceAs (Decidable (if p.node.kind = .variant then _ else _))

theorem Place.survives_iff_stands {s : Settings} {p : Place} (h : p.node.kind ≠ .variant) :
    p.Survives s ↔ p.Stands s := by
  rw [Survives, if_neg h]

theorem Place.survives_variant {s : Settings} {above : List Declaration} {enum d : Declaration}
    (h : d.kind = .variant) :
    Place.Survives s ⟨enum :: above, d⟩ ↔ Place.Stands s ⟨above, enum⟩ := by
  rw [Survives, if_pos h]
  simp [parent?]

/-! ### Forests in which everything has its place -/

namespace Declaration

/-- Who has members is an enum or a record, and variants are the members of enums. -/
structure Houses (d : Declaration) : Prop where
  holds : d.members ≠ [] → d.kind = .enumType ∨ d.kind.IsRecord
  variants : ∀ m ∈ d.members, m.kind = .variant ↔ d.kind = .enumType

/-- The same of a forest: no variant is outside an enum. -/
structure Housed (ds : List Declaration) : Prop where
  top : ∀ d ∈ ds, d.kind ≠ .variant
  each : ∀ d ∈ ds, ∀ m ∈ d.walk, m.Houses

instance (d : Declaration) : Decidable d.Houses :=
  decidable_of_iff ((d.members ≠ [] → d.kind = .enumType ∨ d.kind.IsRecord) ∧
      ∀ m ∈ d.members, m.kind = .variant ↔ d.kind = .enumType)
    ⟨fun h => ⟨h.1, h.2⟩, fun h => ⟨h.holds, h.variants⟩⟩

instance (ds : List Declaration) : Decidable (Housed ds) :=
  decidable_of_iff ((∀ d ∈ ds, d.kind ≠ .variant) ∧ ∀ d ∈ ds, ∀ m ∈ d.walk, m.Houses)
    ⟨fun h => ⟨h.1, h.2⟩, fun h => ⟨h.top, h.each⟩⟩

variable {s : Settings} {insideEnum : Bool}

theorem Houses.members_of_variant {d : Declaration} (h : d.Houses) (hd : d.kind = .variant) :
    d.members = [] := by
  by_contra hne
  have := h.holds hne
  rw [hd, Kind.IsRecord] at this
  simp at this

theorem places_of_variant {d : Declaration} (h : d.Houses) (hd : d.kind = .variant)
    (above : List Declaration) : d.places above = [⟨above, d⟩] := by
  rw [places_eq, h.members_of_variant hd]
  rfl

theorem Houses.not_variant {d : Declaration} (h : d.Houses) (hd : d.kind.IsRecord) :
    ∀ m ∈ d.members, m.kind ≠ .variant := by
  intro m hm hvariant
  have := (h.variants m hm).1 hvariant
  rw [this, Kind.IsRecord] at hd
  simp at hd

/-! ### What is asked for -/

theorem mem_placesAll_nil {ds : List Declaration} {p : Place} :
    p ∈ placesAll [] ds ↔
      ∃ d ∈ ds, p = ⟨[], d⟩ ∨ ∃ q ∈ placesAll [] d.members, q.below [d] = p := by
  rw [placesAll_eq_flatMap, List.mem_flatMap]
  refine exists_congr fun d => and_congr_right fun _ => ?_
  rw [places_eq, List.mem_cons, show [d] = [] ++ [d] from rfl, placesAll_append, List.mem_map]
  rfl

theorem documents_top {d : Declaration} :
    Place.Documents s ⟨[], d⟩ ↔
      d.kind ≠ .variant ∧ d.doc.isSome = true ∧ d.visibility.canExport s = true := by
  simp [Place.Documents, Place.Visible]

theorem documents_below {p : Place} {d : Declaration} :
    (p.below [d]).Documents s ↔ p.Documents s ∧ d.visibility.canExport s = true := by
  simp only [Place.Documents, Place.Visible, Place.below, List.forall_mem_append,
    List.forall_mem_singleton, and_assoc]

/-- In an enum nothing documents what is around it. -/
theorem not_documents_of_enum {d : Declaration} (h : ∀ m ∈ d.walk, m.Houses)
    (hd : d.kind = .enumType) {p : Place} (hp : p ∈ placesAll [] d.members) : ¬ p.Documents s := by
  obtain ⟨hown, hbelow⟩ := forall_walk_iff.1 h
  rw [placesAll_eq_flatMap] at hp
  obtain ⟨m, hm, hp⟩ := List.mem_flatMap.1 hp
  have hvariant := (hown.variants m hm).2 hd
  rw [places_of_variant (forall_walk_iff.1 (hbelow m hm)).1 hvariant, List.mem_singleton] at hp
  rw [hp]
  exact fun hdocuments => hdocuments.1 hvariant

/-- Something in a record documents it if a member can be seen and is documented, or is a
record that something in it documents. -/
theorem exists_documents_iff {own : Declared} {members : List Declaration}
    (h : ∀ m ∈ walk ⟨own, members⟩, m.Houses) (hrecord : own.item.kind.IsRecord) :
    (∃ p ∈ placesAll [] members, p.Documents s) ↔
      ∃ m ∈ members, m.visibility.canExport s = true ∧ (m.doc.isSome = true ∨
        m.kind.IsRecord ∧ ∃ p ∈ placesAll [] m.members, p.Documents s) := by
  obtain ⟨hown, hbelow⟩ := forall_walk_iff.1 h
  constructor
  · rintro ⟨p, hp, hdocuments⟩
    obtain ⟨m, hm, rfl | ⟨q, hq, rfl⟩⟩ := mem_placesAll_nil.1 hp
    · obtain ⟨-, hdoc, hvisible⟩ := documents_top.1 hdocuments
      exact ⟨m, hm, hvisible, .inl hdoc⟩
    · obtain ⟨hdocuments, hvisible⟩ := documents_below.1 hdocuments
      refine ⟨m, hm, hvisible, .inr ⟨?_, q, hq, hdocuments⟩⟩
      have hne : m.members ≠ [] := by
        intro hnil
        rw [hnil] at hq
        cases hq
      refine ((forall_walk_iff.1 (hbelow m hm)).1.holds hne).resolve_left fun henum => ?_
      exact not_documents_of_enum (hbelow m hm) henum hq hdocuments
  · rintro ⟨m, hm, hvisible, hdoc | ⟨-, q, hq, hdocuments⟩⟩
    · have hkind := hown.not_variant hrecord m hm
      exact ⟨⟨[], m⟩, mem_placesAll_nil.2 ⟨m, hm, .inl rfl⟩, documents_top.2 ⟨hkind, hdoc, hvisible⟩⟩
    · exact ⟨q.below [m], mem_placesAll_nil.2 ⟨m, hm, .inr ⟨q, hq, rfl⟩⟩,
        documents_below.2 ⟨hdocuments, hvisible⟩⟩

/-- A record is asked for if it is itself, or if a member that can be seen is. -/
theorem wanted_record_iff {own : Declared} {members : List Declaration}
    (h : ∀ m ∈ walk ⟨own, members⟩, m.Houses) (hrecord : own.item.kind.IsRecord) :
    Wanted s ⟨own, members⟩ ↔ s.showAll = true ∨ own.doc.isSome = true ∨
      ∃ m ∈ members, m.visibility.canExport s = true ∧ m.Wanted s := by
  have hdocuments : (∃ p ∈ placesAll [] members, p.Documents s) ↔ _ := exists_documents_iff h hrecord
  by_cases hshow : s.showAll = true
  · exact iff_of_true (.inl hshow) (.inl hshow)
  · simp only [Wanted, kind, hrecord, true_and, hshow, Bool.false_eq_true, false_or]
    rw [hdocuments]
    rfl

/-! ### One declaration -/

/-- The export keeps of what is no variant what can be seen and is asked for. -/
theorem exported?_ne_none_iff {d : Declaration} (h : ∀ m ∈ d.walk, m.Houses) (hd : d.kind ≠ .variant) :
    exported? s.unsorted insideEnum d ≠ none ↔ d.visibility.canExport s = true ∧ d.Wanted s := by
  induction d using Declaration.induction generalizing insideEnum with
  | step own members ih =>
    obtain ⟨hown, hbelow⟩ := forall_walk_iff.1 h
    rw [exported?_unsorted, ne_eq, ite_eq_right_iff, Classical.not_imp, isKept_iff hd]
    simp only [reduceCtorEq, not_false_iff, and_true]
    refine and_congr_right fun _ => ?_
    by_cases hrecord : own.item.kind.IsRecord
    · have hleft : leftOf s.unsorted own members ≠ [] ↔
          ∃ m ∈ members, m.visibility.canExport s = true ∧ m.Wanted s := by
        rw [leftOf, ne_eq, exportedAll_eq_filterMap, List.filterMap_eq_nil_iff]
        push Not
        refine exists_congr fun m => and_congr_right fun hm => ?_
        exact ih m hm (hbelow m hm) (hown.not_variant hrecord m hm)
      rw [wanted_record_iff h hrecord, hleft]
      simp only [hrecord, true_and]
    · unfold Wanted
      simp only [kind, hrecord, false_and]

theorem exported?_of_ne_none {own : Declared} {members : List Declaration}
    (h : exported? s.unsorted insideEnum ⟨own, members⟩ ≠ none) :
    exported? s.unsorted insideEnum ⟨own, members⟩ = some ⟨own, leftOf s.unsorted own members⟩ := by
  rw [exported?_unsorted] at h ⊢
  split at h
  · exact if_pos ‹_›
  · exact absurd rfl h

/-- Below what falls everything falls. -/
theorem not_survives_of_not_stands {d : Declaration} {above : List Declaration}
    (h : ∀ m ∈ d.walk, m.Houses) (hfalls : ¬ Place.Stands s ⟨above, d⟩) :
    ∀ p ∈ placesAll (d :: above) d.members, ¬ p.Survives s := by
  induction d using Declaration.induction generalizing above with
  | step own members ih =>
    obtain ⟨hown, hbelow⟩ := forall_walk_iff.1 h
    rw [placesAll_eq_flatMap]
    refine List.forall_mem_flatMap.2 fun m hm => ?_
    rcases hown.holds (List.ne_nil_of_mem hm) with henum | hrecord
    · have hvariant := (hown.variants m hm).2 henum
      rw [places_of_variant (forall_walk_iff.1 (hbelow m hm)).1 hvariant, List.forall_mem_singleton,
        Place.survives_variant hvariant]
      exact hfalls
    · have hm_falls : ¬ Place.Stands s ⟨⟨own, members⟩ :: above, m⟩ := by
        rintro ⟨⟨hvisible, habove⟩, hwanted⟩
        obtain ⟨hd, habove⟩ := List.forall_mem_cons.1 habove
        have hd_wanted := (wanted_record_iff h hrecord).2 (.inr (.inr ⟨m, hm, hvisible, hwanted⟩))
        exact hfalls ⟨⟨hd, habove⟩, hd_wanted⟩
      rw [places_eq, List.forall_mem_cons, Place.survives_iff_stands (hown.not_variant hrecord m hm)]
      exact ⟨hm_falls, ih m hm (hbelow m hm) hm_falls⟩

/-! ### The places that are left -/

/-- What is left of the tree stands at the places of the tree that survive. `above` is what the
tree stands in and `above'` what is left of it, so both say the same. -/
def Tells (s : Settings) (insideEnum : Bool) (above above' : List Declaration) (d : Declaration) :
    Prop :=
  ((exported? s.unsorted insideEnum d).toList.flatMap (places above')).map Place.labels =
    ((d.places above).filter (·.Survives s)).map Place.labels

theorem tells_of_each {above above' ds : List Declaration}
    (each : ∀ d ∈ ds, Tells s insideEnum above above' d) :
    (placesAll above' (exportedAll s.unsorted insideEnum ds)).map Place.labels =
      ((placesAll above ds).filter (·.Survives s)).map Place.labels := by
  rw [placesAll_eq_flatMap, placesAll_eq_flatMap, exportedAll_eq_filterMap,
    List.filterMap_eq_flatMap_toList, List.flatMap_assoc, List.filter_flatMap, List.map_flatMap,
    List.map_flatMap]
  exact List.flatMap_congr each

theorem tells_of_variant {d : Declaration} {above above' : List Declaration} (h : d.Houses)
    (hd : d.kind = .variant) (henum : insideEnum = true) (hsurvives : Place.Survives s ⟨above, d⟩)
    (hsame : above'.map (·.toDeclared) = above.map (·.toDeclared)) :
    Tells s insideEnum above above' d := by
  have hexported : exported? s.unsorted insideEnum d = some d := by
    obtain ⟨own, members⟩ := d
    cases h.members_of_variant hd
    rw [exported?_unsorted, isKept_of_variant hd, henum]
    rfl
  rw [Tells, hexported, places_of_variant h hd, Option.toList_some, List.flatMap_singleton,
    places_of_variant h hd, List.filter_singleton, decide_eq_true hsurvives]
  exact congrArg (fun said => [(said, d.toDeclared)]) hsame

theorem tells {d : Declaration} {above above' : List Declaration} (h : ∀ m ∈ d.walk, m.Houses)
    (habove : ∀ a ∈ above, a.visibility.canExport s = true)
    (hsame : above'.map (·.toDeclared) = above.map (·.toDeclared))
    (hvariant : d.kind = .variant → insideEnum = true ∧ Place.Survives s ⟨above, d⟩) :
    Tells s insideEnum above above' d := by
  induction d using Declaration.induction generalizing insideEnum above above' with
  | step own members ih =>
    obtain ⟨hown, hbelow⟩ := forall_walk_iff.1 h
    by_cases hkind : own.item.kind = .variant
    · obtain ⟨henum, hsurvives⟩ := hvariant hkind
      exact tells_of_variant hown hkind henum hsurvives hsame
    have hexported : exported? s.unsorted insideEnum ⟨own, members⟩ ≠ none ↔ _ :=
      exported?_ne_none_iff h hkind
    have hsurvives : Place.Survives s ⟨above, ⟨own, members⟩⟩ ↔ _ := Place.survives_iff_stands hkind
    by_cases hstands : Place.Stands s ⟨above, ⟨own, members⟩⟩
    · have hleft := exported?_of_ne_none (hexported.2 ⟨hstands.1.1, hstands.2⟩)
      have hmembers : (placesAll (⟨own, leftOf s.unsorted own members⟩ :: above')
          (leftOf s.unsorted own members)).map Place.labels =
          ((placesAll (⟨own, members⟩ :: above) members).filter (·.Survives s)).map Place.labels := by
        refine tells_of_each fun m hm => ih m hm (hbelow m hm)
          (List.forall_mem_cons.2 ⟨hstands.1.1, habove⟩) (congrArg (own :: ·) hsame) fun hm_variant => ?_
        exact ⟨beq_iff_eq.2 ((hown.variants m hm).1 hm_variant),
          (Place.survives_variant hm_variant).2 hstands⟩
      rw [Tells, hleft, Option.toList_some, List.flatMap_singleton, places_eq, places_eq,
        List.filter_cons, decide_eq_true (hsurvives.2 hstands), if_pos rfl, List.map_cons, List.map_cons,
        hmembers]
      exact congrArg (fun said => (said, own) :: _) hsame
    · have hnone : exported? s.unsorted insideEnum ⟨own, members⟩ = none := by
        by_contra hne
        obtain ⟨hvisible, hwanted⟩ := hexported.1 hne
        exact hstands ⟨⟨hvisible, habove⟩, hwanted⟩
      have hfalls : ((places above ⟨own, members⟩).filter (·.Survives s)) = [] := by
        rw [List.filter_eq_nil_iff, places_eq, List.forall_mem_cons]
        refine ⟨by simpa using mt hsurvives.1 hstands, fun p hp => ?_⟩
        simpa using not_survives_of_not_stands h hstands p hp
      rw [Tells, hnone, hfalls]
      rfl

end Declaration

end AnnotatedHeader
