import AnnotatedHeader.Proofs.Declaration.Every
import AnnotatedHeader.Scope

/-! Sound forests.

`Sound` says of one declaration which members it may have and which macro may mark it,
and `Forest` that all declarations of a file are sound and fit at the top. Merging finds
the place of a declaration by its entity, so it never leaves two of one entity
(`apart_merged`), and it touches no members (`Sound.inherit`). -/
namespace AnnotatedHeader

/-- The path stands below `parent`. -/
def QualifiedPath.Under (parent path : String) : Prop := ∃ rest, path = parent ++ separator ++ rest

theorem QualifiedPath.under_join {parent name : String} (h : parent ≠ "") :
    Under parent (join parent name) := by
  refine ⟨name, ?_⟩
  unfold join
  rw [if_neg (by simpa using h)]

theorem QualifiedPath.Under.trans {a b c : String} (hab : Under a b) (hbc : Under b c) :
    Under a c := by
  obtain ⟨r, rfl⟩ := hab
  obtain ⟨q, rfl⟩ := hbc
  exact ⟨r ++ separator ++ q, by simp only [String.append_assoc]⟩

theorem QualifiedPath.Under.ne_empty {parent path : String} (h : Under parent path) :
    path ≠ "" := by
  obtain ⟨rest, rfl⟩ := h
  simp [separator, String.append_eq_empty_iff]

theorem QualifiedPath.join_ne_empty {parent name : String} (h : name ≠ "") :
    join parent name ≠ "" := by
  by_cases hp : parent = ""
  · simpa [join, hp] using h
  · exact (under_join hp).ne_empty

/-- A variant is marked by the macro of enum entries, anything else by a macro that is
registered for its kind. -/
def Kind.MarkedBy (kind : Kind) (macroName : String) : Prop :=
  if kind = .variant then macroName = EnumBody.metaMacro
  else (macroName, kind) ∈ Scope.reflectionMacros

theorem Kind.markedBy_variant {macroName : String} :
    Kind.MarkedBy .variant macroName ↔ macroName = EnumBody.metaMacro := by
  simp [MarkedBy]

namespace Declaration

/-- What tells a declaration from its siblings. -/
def entity (d : Declaration) : String × Kind × List String := (d.path, d.kind, d.item.paramTypes)

/-- No two are of one entity. -/
def Apart (ds : List Declaration) : Prop := (ds.map entity).Nodup

theorem apart_nil : Apart [] := List.nodup_nil

/-- What holds of a declaration and its members. -/
structure Sound (d : Declaration) : Prop where
  apart : Apart d.members
  holds : d.members ≠ [] → d.kind = .enumType ∨ d.kind = .structType ∨ d.kind = .classType
  variants : ∀ m ∈ d.members, m.kind = .variant ↔ d.kind = .enumType
  bodiless : d.item.hasBody = false → d.members = []
  under : ∀ m ∈ d.members, QualifiedPath.Under d.path m.path
  marked : ∀ r ∈ d.reflection, d.kind.MarkedBy r.macroName
  real : d.synthetic = false

/-- The declarations of a file. -/
structure Forest (ds : List Declaration) : Prop where
  apart : Apart ds
  top : ∀ d ∈ ds, d.kind ≠ .variant ∧ d.kind ≠ .property
  sound : ∀ d ∈ walkAll ds, d.Sound

/-! ### Merging -/

theorem sameEntity_iff {a b : Declaration} : sameEntity a b = true ↔ a.entity = b.entity := by
  simp [sameEntity, entity, Prod.ext_iff, and_assoc]

@[simp] theorem entity_inherit (winner loser : Declaration) :
    (inherit winner loser).entity = winner.entity := rfl

theorem entity_combine {earlier later : Declaration} (same : sameEntity earlier later = true) :
    (combine earlier later).entity = earlier.entity := by
  unfold combine
  split
  · rfl
  · exact (sameEntity_iff.1 same).symm

theorem map_entity_merged (ds : List Declaration) (later : Declaration) :
    (merged ds later).map entity =
      if later.entity ∈ ds.map entity then ds.map entity else ds.map entity ++ [later.entity] := by
  induction ds with
  | nil => rfl
  | cons d ds ih =>
    rw [merged]
    by_cases same : sameEntity d later = true
    · have heq := sameEntity_iff.1 same
      simp [same, entity_combine same, heq]
    · have hne : later.entity ≠ d.entity := fun h => same (sameEntity_iff.2 h.symm)
      rw [if_neg same, List.map_cons, ih]
      by_cases hmem : later.entity ∈ ds.map entity
      · simp only [hmem, if_true, List.map_cons, List.mem_cons, or_true]
      · simp only [hmem, if_false, List.map_cons, List.mem_cons, hne, or_self, List.cons_append]

/-- What is of another entity than all the others stands behind them. -/
theorem merged_of_new {ds : List Declaration} {later : Declaration} (new : later.entity ∉ ds.map entity) :
    merged ds later = ds ++ [later] := by
  induction ds with
  | nil => rfl
  | cons d ds ih =>
    rw [List.map_cons, List.mem_cons, not_or] at new
    rw [merged, if_neg fun same => new.1 (sameEntity_iff.1 same).symm, ih new.2, List.cons_append]

/-- Where no two are of one entity, merging changes nothing. -/
theorem foldl_merged_of_apart {ds more : List Declaration} (h : Apart (ds ++ more)) :
    more.foldl merged ds = ds ++ more := by
  induction more generalizing ds with
  | nil => rw [List.foldl_nil, List.append_nil]
  | cons d more ih =>
    have hnew : d.entity ∉ ds.map entity := fun hmem => by
      unfold Apart at h
      rw [List.map_append, List.nodup_append] at h
      exact h.2.2 _ hmem _ List.mem_cons_self rfl
    have happend : ds ++ d :: more = ds ++ [d] ++ more := by simp
    rw [List.foldl_cons, merged_of_new hnew, ih (happend ▸ h), happend]

theorem apart_merged {ds : List Declaration} (h : Apart ds) (later : Declaration) :
    Apart (merged ds later) := by
  unfold Apart
  rw [map_entity_merged]
  split
  · exact h
  · rename_i hnew
    refine List.nodup_append.2 ⟨h, List.pairwise_singleton .., ?_⟩
    intro a ha b hb hab
    rw [List.mem_singleton] at hb
    exact hnew (hb ▸ hab ▸ ha)

theorem apart_foldl_merged {ds : List Declaration} (h : Apart ds) (more : List Declaration) :
    Apart (more.foldl merged ds) := by
  induction more generalizing ds with
  | nil => exact h
  | cons d more ih => exact ih (apart_merged h d)

theorem Sound.inherit {winner loser : Declaration} (same : sameEntity winner loser = true)
    (hw : winner.Sound) (hl : loser.Sound) : (inherit winner loser).Sound := by
  have hkind : loser.kind = winner.kind := by
    have := sameEntity_iff.1 same
    simp only [entity, Prod.mk.injEq] at this
    exact this.2.1.symm
  refine ⟨hw.apart, hw.holds, hw.variants, hw.bodiless, hw.under, ?_, hw.real⟩
  intro r hr
  change r ∈ (winner.reflection <|> loser.reflection) at hr
  cases hreflection : winner.reflection with
  | some r' =>
    rw [hreflection] at hr
    exact hw.marked r (hreflection ▸ hr)
  | none =>
    rw [hreflection] at hr
    have := hl.marked r hr
    rwa [hkind] at this

end Declaration

end AnnotatedHeader
