import AnnotatedHeader.Declaration.Merge

/-! What holds of every declaration of a tree.

Merging keeps it (`every_foldl_merged`) when a declaration that takes over what it
lacks keeps it. -/
namespace AnnotatedHeader

/-- A declaration of which only this much is told. -/
def Declared.sample (path : String) (item : Item) (visibility : Visibility) (doc : Option DocBlock) :
    Declared where
  name := path
  path := path
  line := 1
  visibility := visibility
  template := none
  reflection := none
  signature := path
  doc := doc
  item := item
  synthetic := false

namespace Declaration

/-- Of the declaration and of all below it. -/
def Every (Q : Declared → Prop) (d : Declaration) : Prop := ∀ m ∈ d.walk, Q m.toDeclared

/-- What a declaration still satisfies once it has taken over what it lacks from
another of its entity. -/
def Inherits (Q : Declared → Prop) : Prop :=
  ∀ {winner loser : Declaration}, sameEntity winner loser = true →
    Q winner.toDeclared → Q loser.toDeclared → Q (inherit winner loser).toDeclared

variable {Q : Declared → Prop}

theorem forall_walk_iff {P : Declaration → Prop} {d : Declaration} :
    (∀ m ∈ d.walk, P m) ↔ P d ∧ ∀ m ∈ d.members, ∀ n ∈ m.walk, P n := by
  rw [walk_eq, List.forall_mem_cons]
  simp only [List.forall_mem_flatMap]

theorem every_iff {d : Declaration} :
    d.Every Q ↔ Q d.toDeclared ∧ ∀ m ∈ d.members, m.Every Q := by
  unfold Every
  rw [walk_eq d]
  simp only [List.forall_mem_cons, List.mem_flatMap]
  constructor
  · rintro ⟨own, below⟩
    exact ⟨own, fun m hm n hn => below n ⟨m, hm, hn⟩⟩
  · rintro ⟨own, below⟩
    refine ⟨own, ?_⟩
    rintro n ⟨m, hm, hn⟩
    exact below m hm n hn

theorem every_leaf {own : Declared} : Every Q ⟨own, []⟩ ↔ Q own := by
  rw [every_iff]
  simp

theorem forall_mem_walkAll {ds : List Declaration} :
    (∀ m ∈ walkAll ds, Q m.toDeclared) ↔ ∀ d ∈ ds, d.Every Q := by
  rw [walkAll_eq_flatMap]
  simp only [List.mem_flatMap]
  constructor
  · intro h d hd m hm
    exact h m ⟨d, hd, hm⟩
  · rintro h m ⟨d, hd, hm⟩
    exact h d hd m hm

theorem sameEntity_comm (a b : Declaration) : sameEntity a b = sameEntity b a := by
  unfold sameEntity
  rw [BEq.comm (a := a.path), BEq.comm (a := a.kind), BEq.comm (a := a.item.paramTypes)]

theorem every_inherit (hQ : Inherits Q) {winner loser : Declaration}
    (same : sameEntity winner loser = true) (hw : winner.Every Q) (hl : loser.Every Q) :
    (inherit winner loser).Every Q := by
  obtain ⟨hown, hmembers⟩ := every_iff.1 hw
  exact every_iff.2 ⟨hQ same hown (every_iff.1 hl).1, hmembers⟩

/-! ### Merging -/

section
variable {P : Declaration → Prop}
  (hP : ∀ {winner loser : Declaration}, sameEntity winner loser = true →
    P winner → P loser → P (inherit winner loser))

include hP

theorem combine_of_each {earlier later : Declaration} (same : sameEntity earlier later = true)
    (he : P earlier) (hl : P later) : P (combine earlier later) := by
  unfold combine
  split
  · exact hP same he hl
  · exact hP (by rwa [sameEntity_comm]) hl he

theorem forall_merged {ds : List Declaration} {later : Declaration} (hds : ∀ d ∈ ds, P d)
    (hl : P later) : ∀ d ∈ merged ds later, P d := by
  induction ds with
  | nil => simpa [merged] using hl
  | cons d ds ih =>
    obtain ⟨hd, hds⟩ := List.forall_mem_cons.1 hds
    rw [merged]
    split
    · rename_i same
      exact List.forall_mem_cons.2 ⟨combine_of_each hP same hd hl, hds⟩
    · exact List.forall_mem_cons.2 ⟨hd, ih hds⟩

theorem forall_foldl_merged {ds more : List Declaration} (hds : ∀ d ∈ ds, P d)
    (hmore : ∀ d ∈ more, P d) : ∀ d ∈ more.foldl merged ds, P d := by
  induction more generalizing ds with
  | nil => exact hds
  | cons d more ih =>
    obtain ⟨hd, hmore⟩ := List.forall_mem_cons.1 hmore
    exact ih (forall_merged hP hds hd) hmore

end

theorem every_merged (hQ : Inherits Q) {ds : List Declaration} {later : Declaration}
    (hds : ∀ d ∈ ds, d.Every Q) (hl : later.Every Q) : ∀ d ∈ merged ds later, d.Every Q :=
  forall_merged (every_inherit hQ) hds hl

theorem every_foldl_merged (hQ : Inherits Q) {ds more : List Declaration}
    (hds : ∀ d ∈ ds, d.Every Q) (hmore : ∀ d ∈ more, d.Every Q) :
    ∀ d ∈ more.foldl merged ds, d.Every Q :=
  forall_foldl_merged (every_inherit hQ) hds hmore

end Declaration

end AnnotatedHeader
