import AnnotatedHeader.Declaration.Export
import Mathlib

/-! Declarations by name.

`byName` is the stable sort: its result is the one list that is ordered by name and has, of
every name, the same declarations in the same order (`eq_byName_iff`). So it does not matter
whether something that leaves names alone happens before the sorting or after it
(`byName_filterMap`). `sortedAll` sorts trees, every list of siblings in them. -/
namespace AnnotatedHeader.Declaration

/-! ### One list of siblings -/

def OrderedByName (ds : List Declaration) : Prop := ds.Pairwise fun a b => a.name ≤ b.name

def named (name : String) (ds : List Declaration) : List Declaration := ds.filter (·.name = name)

theorem mem_named {d : Declaration} {name : String} {ds : List Declaration} :
    d ∈ named name ds ↔ d ∈ ds ∧ d.name = name := by
  simp [named]

theorem named_cons (name : String) (d : Declaration) (ds : List Declaration) :
    named name (d :: ds) = if d.name = name then d :: named name ds else named name ds := by
  simp [named, List.filter_cons]

theorem perm_byName (ds : List Declaration) : (byName ds).Perm ds := List.mergeSort_perm ..

theorem orderedByName_byName (ds : List Declaration) : OrderedByName (byName ds) := by
  have h : (byName ds).Pairwise fun a b => decide (a.name ≤ b.name) = true :=
    List.pairwise_mergeSort (fun _ _ _ => by simpa using le_trans)
      (fun a b => by simpa using le_total a.name b.name) ds
  exact h.imp of_decide_eq_true

theorem byName_of_ordered {ds : List Declaration} (h : OrderedByName ds) : byName ds = ds :=
  List.mergeSort_of_pairwise (h.imp decide_eq_true)

theorem byName_byName (ds : List Declaration) : byName (byName ds) = byName ds :=
  byName_of_ordered (orderedByName_byName ds)

/-- Declarations of one name keep their order. -/
theorem named_byName (name : String) (ds : List Declaration) :
    named name (byName ds) = named name ds := by
  have hordered : (named name ds).Pairwise fun a b => decide (a.name ≤ b.name) = true :=
    List.pairwise_of_forall_mem_list fun a ha b hb => by
      simp [(mem_named.1 ha).2, (mem_named.1 hb).2]
  have hsub : (named name ds).Sublist (byName ds) :=
    List.sublist_mergeSort (fun _ _ _ => by simpa using le_trans)
      (fun a b => by simpa using le_total a.name b.name) hordered List.filter_sublist
  have hsub' : (named name ds).Sublist (named name (byName ds)) := by
    have := hsub.filter (·.name = name)
    rwa [List.filter_eq_self.2 fun d hd => by simpa using (mem_named.1 hd).2] at this
  exact (hsub'.eq_of_length ((perm_byName ds).filter _).length_eq.symm).symm

theorem mem_iff_of_named {ds es : List Declaration} (h : ∀ name, named name ds = named name es)
    (d : Declaration) : d ∈ ds ↔ d ∈ es := by
  have hd : d ∈ named d.name ds ↔ d ∈ named d.name es := by rw [h]
  simpa [mem_named] using hd

/-- What is ordered by name is known from what it has of each name. -/
theorem eq_of_named {ds es : List Declaration} (hds : OrderedByName ds) (hes : OrderedByName es)
    (h : ∀ name, named name ds = named name es) : ds = es := by
  have hmem := mem_iff_of_named h
  induction ds generalizing es with
  | nil =>
    cases es with
    | nil => rfl
    | cons e es => simpa using hmem e
  | cons d ds ih =>
    cases es with
    | nil => simpa using hmem d
    | cons e es =>
      obtain ⟨hd, hds'⟩ := List.pairwise_cons.1 hds
      obtain ⟨he, hes'⟩ := List.pairwise_cons.1 hes
      have hname : d.name = e.name := by
        apply le_antisymm
        · rcases List.mem_cons.1 ((hmem e).2 (List.mem_cons_self ..)) with rfl | hin
          · exact le_rfl
          · exact hd e hin
        · rcases List.mem_cons.1 ((hmem d).1 (List.mem_cons_self ..)) with rfl | hin
          · exact le_rfl
          · exact he d hin
      have hfirst := h e.name
      rw [named_cons, named_cons, if_pos hname, if_pos rfl] at hfirst
      obtain ⟨rfl, -⟩ := List.cons.inj hfirst
      have hmore (name : String) : named name ds = named name es := by
        have hboth := h name
        rw [named_cons, named_cons] at hboth
        split at hboth
        · exact (List.cons.inj hboth).2
        · exact hboth
      exact congrArg _ (ih hds' hes' hmore (mem_iff_of_named hmore))

/-- **Sorting by name is stable**, and this says all about it. -/
theorem eq_byName_iff {ds es : List Declaration} :
    es = byName ds ↔ OrderedByName es ∧ ∀ name, named name es = named name ds := by
  constructor
  · rintro rfl
    exact ⟨orderedByName_byName ds, fun name => named_byName name ds⟩
  · rintro ⟨hordered, h⟩
    exact eq_of_named hordered (orderedByName_byName ds) fun name =>
      (h name).trans (named_byName name ds).symm

/-- What leaves names alone can happen before the sorting or after it. -/
theorem byName_filterMap {f : Declaration → Option Declaration}
    (hf : ∀ d e, f d = some e → e.name = d.name) (ds : List Declaration) :
    byName (ds.filterMap f) = (byName ds).filterMap f := by
  have hnamed (name : String) (ds : List Declaration) :
      named name (ds.filterMap f) = (named name ds).filterMap f := by
    unfold named
    rw [List.filter_filterMap, List.filterMap_filter]
    refine List.filterMap_congr fun d _ => ?_
    cases he : f d with
    | none => simp
    | some e => simp [hf d e he, Option.filter]
  refine (eq_byName_iff.2 ⟨?_, fun name => ?_⟩).symm
  · refine List.Pairwise.filterMap f (fun a b hab a' ha' b' hb' => ?_) (orderedByName_byName ds)
    rwa [hf a a' ha', hf b b' hb']
  · rw [hnamed, named_byName, hnamed]

theorem byName_map {f : Declaration → Declaration} (hf : ∀ d, (f d).name = d.name)
    (ds : List Declaration) : byName (ds.map f) = (byName ds).map f := by
  rw [← List.filterMap_eq_map, byName_filterMap (fun d e he => ?_)]
  cases he
  exact hf d

/-! ### Trees -/

mutual

/-- The tree with each list of siblings in it by name. -/
def sorted : Declaration → Declaration
  | ⟨own, members⟩ => ⟨own, byName (sortedEach members)⟩

def sortedEach : List Declaration → List Declaration
  | [] => []
  | d :: ds => d.sorted :: sortedEach ds

end

/-- The trees by name, with each list of siblings in them by name. -/
def sortedAll (ds : List Declaration) : List Declaration := byName (sortedEach ds)

theorem sortedEach_eq_map (ds : List Declaration) : sortedEach ds = ds.map sorted := by
  induction ds with
  | nil => rfl
  | cons d ds ih => rw [sortedEach, ih, List.map_cons]

theorem sorted_eq (own : Declared) (members : List Declaration) :
    sorted ⟨own, members⟩ = ⟨own, sortedAll members⟩ := rfl

@[simp] theorem name_sorted (d : Declaration) : d.sorted.name = d.name := by
  cases d
  rfl

theorem sortedAll_eq (ds : List Declaration) : sortedAll ds = (byName ds).map sorted := by
  rw [sortedAll, sortedEach_eq_map, byName_map name_sorted]

theorem sorted_sorted (d : Declaration) : d.sorted.sorted = d.sorted := by
  induction d using Declaration.induction with
  | step own members ih =>
    have hall : sortedAll (sortedAll members) = sortedAll members := by
      rw [sortedAll_eq, sortedAll_eq members, byName_map name_sorted, byName_byName, List.map_map]
      exact List.map_congr_left fun m hm => ih m ((perm_byName members).mem_iff.1 hm)
    rw [sorted_eq, sorted_eq, hall]

theorem sortedAll_sortedAll (ds : List Declaration) : sortedAll (sortedAll ds) = sortedAll ds := by
  rw [sortedAll_eq, sortedAll_eq ds, byName_map name_sorted, byName_byName, List.map_map]
  exact List.map_congr_left fun d _ => sorted_sorted d

theorem sortedAll_eq_nil_iff {ds : List Declaration} : sortedAll ds = [] ↔ ds = [] := by
  rw [sortedAll_eq, List.map_eq_nil_iff]
  constructor
  · intro h
    exact (h ▸ perm_byName ds).symm.eq_nil
  · rintro rfl
    exact (perm_byName []).eq_nil

end AnnotatedHeader.Declaration
