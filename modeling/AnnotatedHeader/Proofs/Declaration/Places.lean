import AnnotatedHeader.Proofs.Declaration.Every
import Mathlib

/-! Places in forests.

A `Place` is a node with all that it stands in, so two declarations that say the same are
still two. The places of a forest are listed in depth-first order, and what their nodes and
the nodes above them say, in that order, determines the forest (`eq_of_map_labels`). -/
namespace AnnotatedHeader

/-- A node of a forest, with the nodes above it, the innermost first. -/
structure Place where
  above : List Declaration
  node : Declaration

namespace Place

/-- What the node says, and what those above it say. -/
def labels (p : Place) : List Declared × Declared := (p.above.map (·.toDeclared), p.node.toDeclared)

/-- The same place in a forest that stands below `more`. -/
def below (more : List Declaration) (p : Place) : Place := { p with above := p.above ++ more }

/-- The place of the node right above. -/
def parent? (p : Place) : Option Place :=
  match p.above with
  | [] => none
  | node :: above => some ⟨above, node⟩

end Place

namespace Declaration

mutual

/-- The places of a tree that stands below `above`. -/
def places (above : List Declaration) : Declaration → List Place
  | ⟨own, members⟩ => ⟨above, ⟨own, members⟩⟩ :: placesAll (⟨own, members⟩ :: above) members

def placesAll (above : List Declaration) : List Declaration → List Place
  | [] => []
  | d :: ds => d.places above ++ placesAll above ds

end

theorem places_eq (above : List Declaration) (d : Declaration) :
    d.places above = ⟨above, d⟩ :: placesAll (d :: above) d.members := by
  cases d
  rw [places]

theorem placesAll_eq_flatMap (above ds : List Declaration) :
    placesAll above ds = ds.flatMap (places above) := by
  induction ds with
  | nil => rfl
  | cons d ds ih => rw [placesAll, ih, List.flatMap_cons]

/-- The nodes of the places are those of a walk. -/
theorem map_node_places (above : List Declaration) (d : Declaration) :
    (d.places above).map (·.node) = d.walk := by
  induction d using Declaration.induction generalizing above with
  | step own members ih =>
    rw [places_eq, walk_eq, placesAll_eq_flatMap, List.map_cons, List.map_flatMap]
    exact congrArg _ (List.flatMap_congr fun m hm => ih m hm _)

theorem placesAll_of_each {above more ds : List Declaration}
    (each : ∀ d ∈ ds, d.places (above ++ more) = (d.places above).map (Place.below more)) :
    placesAll (above ++ more) ds = (placesAll above ds).map (Place.below more) := by
  rw [placesAll_eq_flatMap, placesAll_eq_flatMap, List.map_flatMap]
  exact List.flatMap_congr each

/-- What stands further above changes nothing else. -/
theorem places_append (above more : List Declaration) (d : Declaration) :
    d.places (above ++ more) = (d.places above).map (Place.below more) := by
  induction d using Declaration.induction generalizing above with
  | step own members ih =>
    rw [places_eq, places_eq, List.map_cons, ← List.cons_append]
    exact congrArg _ (placesAll_of_each fun m hm => ih m hm _)

theorem placesAll_append (above more ds : List Declaration) :
    placesAll (above ++ more) ds = (placesAll above ds).map (Place.below more) :=
  placesAll_of_each fun d _ => places_append above more d

/-! ### A forest from its places -/

theorem length_above_of_mem_places {above : List Declaration} {d : Declaration} :
    ∀ p ∈ d.places above, above.length ≤ p.above.length := by
  have h := places_append [] above d
  rw [List.nil_append] at h
  rw [h]
  refine List.forall_mem_map.2 fun p _ => ?_
  simp [Place.below]

theorem length_above_of_mem_placesAll {above ds : List Declaration} :
    ∀ p ∈ placesAll above ds, above.length ≤ p.above.length := by
  rw [placesAll_eq_flatMap]
  exact List.forall_mem_flatMap.2 fun d _ => length_above_of_mem_places

/-- What stands in a node reaches up to the first place that is not below it. -/
theorem takeWhile_labels (above : List Declaration) (d : Declaration) (ds : List Declaration) :
    ((placesAll (d :: above) d.members ++ placesAll above ds).map Place.labels).takeWhile
        (fun e => above.length < e.1.length) = (placesAll (d :: above) d.members).map Place.labels := by
  have hwithin : ∀ e ∈ (placesAll (d :: above) d.members).map Place.labels,
      decide (above.length < e.1.length) = true :=
    List.forall_mem_map.2 fun p hp => by
      simpa [Place.labels] using length_above_of_mem_placesAll p hp
  rw [List.map_append, List.takeWhile_append_of_pos hwithin]
  cases ds with
  | nil => exact List.append_nil _
  | cons e ds =>
    rw [placesAll, places_eq, List.cons_append, List.map_cons,
      List.takeWhile_cons_of_neg (by simp [Place.labels]), List.append_nil]

/-- The trees are told by what is said at their places. -/
def Told (ds : List Declaration) : Prop :=
  ∀ {above above' es : List Declaration}, above.length = above'.length →
    (placesAll above ds).map Place.labels = (placesAll above' es).map Place.labels → ds = es

theorem told_of_each {ds : List Declaration} (each : ∀ d ∈ ds, Told d.members) : Told ds := by
  intro above above' es hlength h
  induction ds generalizing es with
  | nil =>
    cases es with
    | nil => rfl
    | cons e es => simp [placesAll, places_eq] at h
  | cons d ds ih =>
    cases es with
    | nil => simp [placesAll, places_eq] at h
    | cons e es =>
      obtain ⟨hd, hds⟩ := List.forall_mem_cons.1 each
      rw [placesAll, placesAll, places_eq, places_eq, List.cons_append, List.cons_append,
        List.map_cons, List.map_cons] at h
      obtain ⟨hfirst, h⟩ := List.cons.inj h
      have hmembers := takeWhile_labels above d ds
      rw [h, hlength, takeWhile_labels above' e es] at hmembers
      rw [List.map_append, List.map_append, ← hmembers] at h
      have hmore := ih hds (List.append_cancel_left h)
      have hsame := hd (by simp [hlength]) hmembers.symm
      have hown : d.toDeclared = e.toDeclared := congrArg Prod.snd hfirst
      cases d
      cases e
      cases hown
      cases hsame
      rw [hmore]

/-- **A forest is told by what is said at its places**, in their order. -/
theorem eq_of_map_labels {ds es : List Declaration}
    (h : (placesAll [] ds).map Place.labels = (placesAll [] es).map Place.labels) : ds = es := by
  have hwithin (d : Declaration) : Told d.members := by
    induction d using Declaration.induction with
    | step own members ih => exact told_of_each ih
  exact told_of_each (fun d _ => hwithin d) rfl h

end Declaration

end AnnotatedHeader
